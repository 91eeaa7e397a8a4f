import YfsLab.Lib.Runs
import YfsLab.Marshall
import YfsLab.ReplyWindow

namespace YfsLab.Rpcs
open ReplyWindow

-- What rpcs::reg stores for a procedure: the types h1::fn decodes and encodes,
-- and which (return value, r) the application's method may produce.
structure Handler where
  args : List Ty
  res : Ty
  meth : List Val → Int32 → Val → Bool

def rpcbind (nonce : UInt32) : Handler := ⟨[.int],.int,fun _ ret r => ret == 0 && r == .int nonce.toInt32⟩

structure Config where
  nonce : UInt32
  registered : UInt32 → Option Handler

-- procs_ after the constructor and the application's calls of reg: reg1 asserts
-- that a number is free, so bind keeps its handler.
def Config.procs (cfg : Config) (proc : UInt32) : Option Handler :=
  if proc = RpcConst.bind then some (rpcbind cfg.nonce) else cfg.registered proc

-- Where a dispatch thread stands; each step up to the next point is one
-- critical section, one handler call or one connection::send.
inductive Pc where
  | start
  | window
  | record
  | check
  | run
  | add
  | choose
  | send
  | sendOld
  | decref
  | finished
  deriving DecidableEq, Repr

-- The variables of one dispatch. `arrived` is the connection of the djob_t;
-- `conn` is c, which the thread may change. `junk` is the uninitialised memory
-- of the marshall object rep.
structure Job (C : Type) where
  arrived : C
  conn : C
  pdu : List UInt8
  junk : Nat → UInt8
  b1 : List UInt8
  pc : Pc

def Job.h {C : Type} (job : Job C) : ReqHeader := (Unmarshall.ofPdu job.pdu).unpackReqHeader.1
def Job.req {C : Type} (job : Job C) : Unmarshall := (Unmarshall.ofPdu job.pdu).unpackReqHeader.2

-- History: what the critical sections answered, in the order they were passed.
-- No step reads it.
inductive Event (C : Type) where
  | recorded (j : Nat) (clt : UInt32) (c : C)
  | checked (j : Nat) (clt xid xidRep : UInt32) (stat : RpcstateT)
  | ran (j : Nat) (clt xid proc : UInt32) (args : List Val) (ret : Int32) (r : Val)
  | chose (j : Nat) (clt xid : UInt32) (c : C)
  | sent (j : Nat) (c : C)
  deriving DecidableEq, Repr

def Event.job {C : Type} : Event C → Nat
  | .recorded j _ _ | .checked j _ _ _ _ | .ran j _ _ _ _ _ _ | .chose j _ _ _ | .sent j _ => j

-- `accepted` is tcpsconn::conns_; `conns` is rpcs::conns_, whose operator[]
-- inserts a NULL connection, and `dead` is the server's view of its ends.
structure State (C : Type) where
  queue : List (C × List UInt8)
  jobs : List (Job C)
  windows : Windows
  conns : UInt32 → Option (Option C)
  refno : C → Int
  dead : C → Bool
  accepted : List C
  crashed : Bool
  trace : List (Event C)

def initial {C : Type} : State C :=
  {queue:=[],jobs:=[],windows:=ReplyWindow.initial,conns:=fun _ => none,refno:=fun _ => 0,dead:=fun _ => false,
   accepted:=[],crashed:=false,trace:=[]}

inductive Label (C : Type) where
  | accept (c : C)
  | collect (c : C)
  | dies (c : C)
  | gotPdu (c : C) (pdu : List UInt8)
  | take (junk : Nat → UInt8)
  | start (j : Nat)
  | window (j : Nat)
  | record (j : Nat)
  | check (j : Nat)
  | run (j : Nat) (ret : Int32) (r : Val)
  | add (j : Nat)
  | choose (j : Nat)
  | send (j : Nat)
  | decref (j : Nat)

section Steps
variable {C : Type} [DecidableEq C]

def bump (refno : C → Int) (c : C) (by_ : Int) : C → Int :=
  fun other => if other = c then refno other + by_ else refno other

def setJob (s : State C) (j : Nat) (job : Job C) : State C := {s with jobs:=s.jobs.set j job}

def log (s : State C) (event : Event C) : State C := {s with trace:=s.trace ++ [event]}

omit [DecidableEq C] in
@[simp] theorem setJob_conns (s : State C) (j : Nat) (job : Job C) : (setJob s j job).conns = s.conns := rfl
omit [DecidableEq C] in
@[simp] theorem setJob_trace (s : State C) (j : Nat) (job : Job C) : (setJob s j job).trace = s.trace := rfl
omit [DecidableEq C] in
@[simp] theorem log_conns (s : State C) (event : Event C) : (log s event).conns = s.conns := rfl
omit [DecidableEq C] in
@[simp] theorem log_trace (s : State C) (event : Event C) : (log s event).trace = s.trace ++ [event] := rfl

-- marshall rep; rep.pack_reply_header(rh), with r marshalled before if present.
def reply (job : Job C) (ret : Int32) (r : Option Val) : List UInt8 :=
  (((Marshall.new job.junk).puts r.toList).packReplyHeader ⟨job.h.xid,ret⟩).str

-- ThrPool(10, false): a queue of 100 * 10 jobs and ten workers.
def poolSize : Nat := 10
def queueLimit : Nat := 100 * poolSize

def active (s : State C) : Nat := s.jobs.countP (fun job => job.pc ≠ .finished)

-- rpcs::got_pdu. A refused PDU stays in the connection.
def gotPdu (s : State C) (c : C) (pdu : List UInt8) : State C :=
  if s.queue.length < queueLimit then {s with queue:=s.queue ++ [(c,pdu)],refno:=bump s.refno c 1} else s

-- From the start of dispatch to the registered procedure. A request for an
-- older instance is answered without the decref of the other ways out.
def start (cfg : Config) (s : State C) (j : Nat) (job : Job C) : State C :=
  if job.req.ok = false then setJob {s with refno:=bump s.refno job.conn (-1)} j {job with pc:=.finished}
  else if job.h.srvNonce ≠ 0 ∧ job.h.srvNonce ≠ cfg.nonce then
    setJob s j {job with b1:=reply job RpcConst.oldsrvFailure none,pc:=.sendOld}
  else if (cfg.procs job.h.proc).isNone then
    setJob {s with refno:=bump s.refno job.conn (-1)} j {job with pc:=.finished}
  else if job.h.cltNonce = 0 then setJob s j {job with pc:=.run}
  else setJob s j {job with pc:=.window}

-- "save the latest good connection to the client".
def record (s : State C) (j : Nat) (job : Job C) : State C :=
  let s' := log (setJob s j {job with pc:=.check}) (.recorded j job.h.cltNonce job.conn)
  match s.conns job.h.cltNonce with
  | none =>
    {s' with
      conns:=fun n => if n = job.h.cltNonce then some (some job.conn) else s.conns n
      refno:=bump s.refno job.conn 1}
  | some none => {s' with crashed:=true}
  | some (some old) =>
    if old = job.conn then s' else
    {s' with
      conns:=fun n => if n = job.h.cltNonce then some (some job.conn) else s.conns n
      refno:=bump (bump s.refno old (-1)) job.conn 1}

def afterCheck (job : Job C) (answer : Answer) : Job C :=
  match answer.stat with
  | .NEW => {job with pc:=.run}
  | .INPROGRESS => {job with pc:=.decref}
  | .DONE => {job with b1:=(answer.out.getD ([],0)).1,pc:=.send}
  | .FORGOTTEN => {job with b1:=reply job RpcConst.atmostonceFailure none,pc:=.send}

def check (s : State C) (j : Nat) (job : Job C) : Option (State C) :=
  match checkduplicateAndUpdate s.windows job.h.cltNonce job.h.xid job.h.xidRep with
  | none => none
  | some (answer,windows) =>
    some (log (setJob {s with windows:=windows} j (afterCheck job answer))
      (.checked j job.h.cltNonce job.h.xid job.h.xidRep answer.stat))

-- h1::fn up to its okdone test.
def arguments (handler : Handler) (job : Job C) : Option (List Val) :=
  let (values,u) := job.req.gets handler.args
  if u.okdone then some values else none

-- f->fn(req, rep), the assertion on its result and the packing of the reply.
def run (cfg : Config) (s : State C) (j : Nat) (job : Job C) (ret : Int32) (r : Val) : Option (State C) :=
  match cfg.procs job.h.proc with
  | none => none
  | some handler =>
    match arguments handler job with
    | none =>
      some (setJob s j {job with b1:=reply job RpcConst.unmarshalArgsFailure none,pc:=.add})
    | some args =>
      if handler.meth args ret r && r.ty == handler.res then
        let s' := log s (.ran j job.h.cltNonce job.h.xid job.h.proc args ret r)
        if ret ≥ 0 ∨ ret = RpcConst.unmarshalArgsFailure then
          some (setJob s' j {job with b1:=reply job ret (some r),pc:=.add})
        else some {s' with crashed:=true}
      else none

def add (s : State C) (j : Nat) (job : Job C) : State C :=
  let s' := setJob s j {job with pc:=.choose}
  if job.h.cltNonce > 0 then
    {s' with windows:=addReply s.windows job.h.cltNonce job.h.xid job.b1 job.b1.length}
  else s'

-- "get the latest connection to the client".
def choose (s : State C) (j : Nat) (job : Job C) : State C :=
  let keep := log (setJob s j {job with pc:=.send}) (.chose j job.h.cltNonce job.h.xid job.conn)
  if s.dead job.conn = false then keep else
  match s.conns job.h.cltNonce with
  | none => {s with conns:=fun n => if n = job.h.cltNonce then some none else s.conns n,crashed:=true}
  | some none => {s with crashed:=true}
  | some (some latest) =>
    if latest = job.conn then keep else
    {log (setJob s j {job with conn:=latest,pc:=.send}) (.chose j job.h.cltNonce job.h.xid latest) with
      refno:=bump (bump s.refno job.conn (-1)) latest 1}

def stepJob (cfg : Config) (s : State C) (j : Nat) (job : Job C) : Label C → Option (State C)
  | .start _ => if job.pc = .start then some (start cfg s j job) else none
  | .window _ =>
    if job.pc = .window then
      some (setJob {s with windows:=createWindow s.windows job.h.cltNonce} j {job with pc:=.record})
    else none
  | .record _ => if job.pc = .record then some (record s j job) else none
  | .check _ => if job.pc = .check then check s j job else none
  | .run _ ret r => if job.pc = .run then run cfg s j job ret r else none
  | .add _ => if job.pc = .add then some (add s j job) else none
  | .choose _ => if job.pc = .choose then some (choose s j job) else none
  | .send _ =>
    if job.pc = .send then some (log (setJob s j {job with pc:=.decref}) (.sent j job.conn))
    else if job.pc = .sendOld then some (log (setJob s j {job with pc:=.finished}) (.sent j job.conn))
    else none
  | .decref _ =>
    if job.pc = .decref then some (setJob {s with refno:=bump s.refno job.conn (-1)} j {job with pc:=.finished})
    else none
  | _ => none

def Label.job : Label C → Option Nat
  | .start j | .window j | .record j | .check j | .run j _ _ | .add j | .choose j | .send j | .decref j => some j
  | .accept _ | .collect _ | .dies _ | .gotPdu _ _ | .take _ => none

def step (cfg : Config) (s : State C) (label : Label C) : Option (State C) :=
  if s.crashed then none else
  match label with
  | .accept c =>
    if c ∈ s.accepted then none else some {s with accepted:=s.accepted ++ [c],refno:=bump s.refno c 1}
  | .collect c =>
    if c ∈ s.accepted ∧ s.dead c = true ∧ s.refno c = 1 then
      some {s with accepted:=s.accepted.erase c,refno:=bump s.refno c (-1)}
    else none
  | .dies c => some {s with dead:=fun other => if other = c then true else s.dead other}
  | .gotPdu c pdu => if c ∈ s.accepted ∧ s.dead c = false then some (gotPdu s c pdu) else none
  | .take junk =>
    match s.queue with
    | [] => none
    | (c,pdu) :: rest =>
      if active s < poolSize then some {s with queue:=rest,jobs:=s.jobs ++ [⟨c,c,pdu,junk,[],.start⟩]} else none
  | label =>
    match label.job with
    | none => none
    | some j =>
      match s.jobs[j]? with
      | none => none
      | some job => stepJob cfg s j job label

-- The reply PDU a send puts on its connection, unless the server's end is dead.
def emits (s : State C) : Label C → Option (C × List UInt8)
  | .send j =>
    match s.jobs[j]? with
    | none => none
    | some job =>
      if (job.pc = .send ∨ job.pc = .sendOld) ∧ s.dead job.conn = false then some (job.conn,frame job.b1) else none
  | _ => none

-- The rules of the machine, one for each way through a step. Invariants are
-- proved from these; the executable step is never unfolded again.
inductive Step (cfg : Config) (s : State C) : Label C → State C → Prop where
  | accept : c ∉ s.accepted → Step cfg s (.accept c) {s with accepted:=s.accepted ++ [c],refno:=bump s.refno c 1}
  | collect : s.dead c = true → s.refno c = 1 →
      Step cfg s (.collect c) {s with accepted:=s.accepted.erase c,refno:=bump s.refno c (-1)}
  | dies : Step cfg s (.dies c) {s with dead:=fun other => if other = c then true else s.dead other}
  | refuse : Step cfg s (.gotPdu c pdu) s
  | enqueue : s.dead c = false → s.queue.length < queueLimit →
      Step cfg s (.gotPdu c pdu) {s with queue:=s.queue ++ [(c,pdu)],refno:=bump s.refno c 1}
  | take : s.queue = (c,pdu) :: rest →
      Step cfg s (.take junk) {s with queue:=rest,jobs:=s.jobs ++ [⟨c,c,pdu,junk,[],.start⟩]}
  | leave : s.jobs[j]? = some job → job.pc = .start →
      (job.req.ok = false ∨ cfg.procs job.h.proc = none) →
      Step cfg s (.start j) (setJob {s with refno:=bump s.refno job.conn (-1)} j {job with pc:=.finished})
  | stale : s.jobs[j]? = some job → job.pc = .start → job.req.ok = true →
      job.h.srvNonce ≠ 0 → job.h.srvNonce ≠ cfg.nonce →
      Step cfg s (.start j) (setJob s j {job with b1:=reply job RpcConst.oldsrvFailure none,pc:=.sendOld})
  | unguarded : s.jobs[j]? = some job → job.pc = .start → job.req.ok = true →
      (job.h.srvNonce = 0 ∨ job.h.srvNonce = cfg.nonce) → job.h.cltNonce = 0 →
      Step cfg s (.start j) (setJob s j {job with pc:=.run})
  | guarded : s.jobs[j]? = some job → job.pc = .start → job.req.ok = true →
      (job.h.srvNonce = 0 ∨ job.h.srvNonce = cfg.nonce) → job.h.cltNonce ≠ 0 →
      Step cfg s (.start j) (setJob s j {job with pc:=.window})
  | window : s.jobs[j]? = some job → job.pc = .window →
      Step cfg s (.window j)
        (setJob {s with windows:=createWindow s.windows job.h.cltNonce} j {job with pc:=.record})
  | recordKept : s.jobs[j]? = some job → job.pc = .record → s.conns job.h.cltNonce = some (some job.conn) →
      Step cfg s (.record j) (log (setJob s j {job with pc:=.check}) (.recorded j job.h.cltNonce job.conn))
  | recordFirst : s.jobs[j]? = some job → job.pc = .record → s.conns job.h.cltNonce = none →
      Step cfg s (.record j)
        {log (setJob s j {job with pc:=.check}) (.recorded j job.h.cltNonce job.conn) with
          conns:=fun n => if n = job.h.cltNonce then some (some job.conn) else s.conns n
          refno:=bump s.refno job.conn 1}
  | recordOther : s.jobs[j]? = some job → job.pc = .record → s.conns job.h.cltNonce = some (some old) →
      old ≠ job.conn →
      Step cfg s (.record j)
        {log (setJob s j {job with pc:=.check}) (.recorded j job.h.cltNonce job.conn) with
          conns:=fun n => if n = job.h.cltNonce then some (some job.conn) else s.conns n
          refno:=bump (bump s.refno old (-1)) job.conn 1}
  | recordCrash : s.jobs[j]? = some job → job.pc = .record → s.conns job.h.cltNonce = some none →
      Step cfg s (.record j)
        {log (setJob s j {job with pc:=.check}) (.recorded j job.h.cltNonce job.conn) with crashed:=true}
  | check : s.jobs[j]? = some job → job.pc = .check →
      checkduplicateAndUpdate s.windows job.h.cltNonce job.h.xid job.h.xidRep = some (answer,windows) →
      Step cfg s (.check j) (log (setJob {s with windows:=windows} j (afterCheck job answer))
        (.checked j job.h.cltNonce job.h.xid job.h.xidRep answer.stat))
  | undecoded : s.jobs[j]? = some job → job.pc = .run → cfg.procs job.h.proc = some handler →
      arguments handler job = none →
      Step cfg s (.run j ret r)
        (setJob s j {job with b1:=reply job RpcConst.unmarshalArgsFailure none,pc:=.add})
  | ran : s.jobs[j]? = some job → job.pc = .run → cfg.procs job.h.proc = some handler →
      arguments handler job = some args → handler.meth args ret r = true → r.ty = handler.res →
      Step cfg s (.run j ret r)
        (setJob (log s (.ran j job.h.cltNonce job.h.xid job.h.proc args ret r)) j
          {job with b1:=reply job ret (some r),pc:=.add})
  | runCrash : s.jobs[j]? = some job → job.pc = .run → cfg.procs job.h.proc = some handler →
      arguments handler job = some args → handler.meth args ret r = true → r.ty = handler.res →
      Step cfg s (.run j ret r)
        {log s (.ran j job.h.cltNonce job.h.xid job.h.proc args ret r) with crashed:=true}
  | add : s.jobs[j]? = some job → job.pc = .add → job.h.cltNonce ≠ 0 →
      Step cfg s (.add j)
        {setJob s j {job with pc:=.choose} with
          windows:=addReply s.windows job.h.cltNonce job.h.xid job.b1 job.b1.length}
  | addNothing : s.jobs[j]? = some job → job.pc = .add → job.h.cltNonce = 0 →
      Step cfg s (.add j) (setJob s j {job with pc:=.choose})
  | chooseKept : s.jobs[j]? = some job → job.pc = .choose →
      (s.dead job.conn = false ∨ s.conns job.h.cltNonce = some (some job.conn)) →
      Step cfg s (.choose j)
        (log (setJob s j {job with pc:=.send}) (.chose j job.h.cltNonce job.h.xid job.conn))
  | chooseLatest : s.jobs[j]? = some job → job.pc = .choose → s.dead job.conn = true →
      s.conns job.h.cltNonce = some (some latest) → latest ≠ job.conn →
      Step cfg s (.choose j)
        {log (setJob s j {job with conn:=latest,pc:=.send}) (.chose j job.h.cltNonce job.h.xid latest) with
          refno:=bump (bump s.refno job.conn (-1)) latest 1}
  | chooseNull : s.jobs[j]? = some job → job.pc = .choose → s.dead job.conn = true → s.conns job.h.cltNonce = some none →
      Step cfg s (.choose j) {s with crashed:=true}
  | chooseMissing : s.jobs[j]? = some job → job.pc = .choose → s.dead job.conn = true → s.conns job.h.cltNonce = none →
      Step cfg s (.choose j)
        {s with conns:=fun n => if n = job.h.cltNonce then some none else s.conns n,crashed:=true}
  | send : s.jobs[j]? = some job → job.pc = .send →
      Step cfg s (.send j) (log (setJob s j {job with pc:=.decref}) (.sent j job.conn))
  | sendOld : s.jobs[j]? = some job → job.pc = .sendOld →
      Step cfg s (.send j) (log (setJob s j {job with pc:=.finished}) (.sent j job.conn))
  | decref : s.jobs[j]? = some job → job.pc = .decref →
      Step cfg s (.decref j) (setJob {s with refno:=bump s.refno job.conn (-1)} j {job with pc:=.finished})

variable {cfg : Config} {s s' : State C} {label : Label C} {j : Nat} {job : Job C}

theorem step_job (own : label.job = some j) (taken : step cfg s label = some s') :
    ∃ job, s.jobs[j]? = some job ∧ stepJob cfg s j job label = some s' := by
  have unfolded : step cfg s label = if s.crashed then none else match s.jobs[j]? with
      | none => none
      | some job => stepJob cfg s j job label := by
    cases label <;> simp_all [step,Label.job]
  rw [unfolded] at taken
  split at taken
  · cases taken
  · cases held : s.jobs[j]? with
    | none => simp [held] at taken
    | some job => exact ⟨job,rfl,by simpa [held] using taken⟩

theorem start_sound (held : s.jobs[j]? = some job) (pc : job.pc = .start) :
    Step cfg s (.start j) (start cfg s j job) := by
  unfold start
  split
  · rename_i bad; exact .leave held pc (.inl bad)
  · rename_i good
    have good : job.req.ok = true := by simpa using good
    split
    · rename_i old; exact .stale held pc good old.1 old.2
    · rename_i current
      have current : job.h.srvNonce = 0 ∨ job.h.srvNonce = cfg.nonce := by
        by_cases zero : job.h.srvNonce = 0
        · exact .inl zero
        · exact .inr (Classical.byContradiction fun other => current ⟨zero,other⟩)
      split
      · rename_i unknown; exact .leave held pc (.inr (Option.isNone_iff_eq_none.mp unknown))
      · split
        · rename_i zero; exact .unguarded held pc good current zero
        · rename_i nonzero; exact .guarded held pc good current nonzero

theorem record_sound (held : s.jobs[j]? = some job) (pc : job.pc = .record) :
    Step cfg s (.record j) (record s j job) := by
  unfold record
  dsimp only
  split
  · rename_i unknown; exact .recordFirst held pc unknown
  · rename_i null; exact .recordCrash held pc null
  · rename_i old known
    split
    · rename_i same; exact .recordKept held pc (same ▸ known)
    · rename_i different; exact .recordOther held pc known different

theorem run_sound (held : s.jobs[j]? = some job) (pc : job.pc = .run)
    (taken : run cfg s j job ret r = some s') : Step cfg s (.run j ret r) s' := by
  unfold run at taken
  split at taken
  · cases taken
  · rename_i handler known
    split at taken
    · rename_i bad
      cases Option.some.inj taken
      exact .undecoded held pc known bad
    · rename_i args good
      split at taken
      · rename_i allowed
        have parts : handler.meth args ret r = true ∧ r.ty = handler.res := by simpa using allowed
        dsimp only at taken
        split at taken
        · cases Option.some.inj taken
          exact .ran held pc known good parts.1 parts.2
        · cases Option.some.inj taken
          exact .runCrash held pc known good parts.1 parts.2
      · cases taken

theorem choose_sound (held : s.jobs[j]? = some job) (pc : job.pc = .choose) :
    Step cfg s (.choose j) (choose s j job) := by
  unfold choose
  dsimp only
  split
  · rename_i alive; exact .chooseKept held pc (.inl alive)
  · rename_i noticed
    have noticed : s.dead job.conn = true := by simpa using noticed
    split
    · rename_i missing; exact .chooseMissing held pc noticed missing
    · rename_i null; exact .chooseNull held pc noticed null
    · rename_i latest known
      split
      · rename_i same; exact .chooseKept held pc (.inr (same ▸ known))
      · rename_i different; exact .chooseLatest held pc noticed known different

theorem step_alive (taken : step cfg s label = some s') : s.crashed = false := by
  unfold step at taken
  split at taken
  · cases taken
  · rename_i alive; simpa using alive

theorem step_sound (taken : step cfg s label = some s') : Step cfg s label s' := by
  cases label with
  | accept c =>
    simp only [step] at taken
    split at taken
    · cases taken
    · split at taken
      · cases taken
      · rename_i fresh; cases Option.some.inj taken; exact .accept fresh
  | collect c =>
    simp only [step] at taken
    split at taken
    · cases taken
    · split at taken
      · rename_i ready; cases Option.some.inj taken; exact .collect ready.2.1 ready.2.2
      · cases taken
  | dies c =>
    simp only [step] at taken
    split at taken
    · cases taken
    · cases Option.some.inj taken; exact .dies
  | gotPdu c pdu =>
    simp only [step] at taken
    split at taken
    · cases taken
    · split at taken
      · rename_i ready
        cases Option.some.inj taken
        unfold gotPdu
        split
        · rename_i room; exact .enqueue ready.2 room
        · exact .refuse
      · cases taken
  | take junk =>
    simp only [step] at taken
    split at taken
    · cases taken
    · split at taken
      · cases taken
      · rename_i c pdu rest waiting
        split at taken
        · cases Option.some.inj taken; exact .take waiting
        · cases taken
  | start j =>
    obtain ⟨job,held,taken⟩ := step_job rfl taken
    simp only [stepJob,Option.ite_none_right_eq_some,Option.some.injEq] at taken
    obtain ⟨pc,rfl⟩ := taken
    exact start_sound held pc
  | window j =>
    obtain ⟨job,held,taken⟩ := step_job rfl taken
    simp only [stepJob,Option.ite_none_right_eq_some,Option.some.injEq] at taken
    obtain ⟨pc,rfl⟩ := taken
    exact .window held pc
  | record j =>
    obtain ⟨job,held,taken⟩ := step_job rfl taken
    simp only [stepJob,Option.ite_none_right_eq_some,Option.some.injEq] at taken
    obtain ⟨pc,rfl⟩ := taken
    exact record_sound held pc
  | check j =>
    obtain ⟨job,held,taken⟩ := step_job rfl taken
    simp only [stepJob,Option.ite_none_right_eq_some] at taken
    obtain ⟨pc,taken⟩ := taken
    unfold check at taken
    split at taken
    · cases taken
    · rename_i answered; cases Option.some.inj taken; exact .check held pc answered
  | run j ret r =>
    obtain ⟨job,held,taken⟩ := step_job rfl taken
    simp only [stepJob,Option.ite_none_right_eq_some] at taken
    obtain ⟨pc,taken⟩ := taken
    exact run_sound held pc taken
  | add j =>
    obtain ⟨job,held,taken⟩ := step_job rfl taken
    simp only [stepJob,Option.ite_none_right_eq_some,Option.some.injEq] at taken
    obtain ⟨pc,rfl⟩ := taken
    unfold add
    dsimp only
    split
    · rename_i positive
      exact .add held pc (fun zero => by simp [zero] at positive)
    · rename_i notPositive
      refine .addNothing held pc ?_
      grind
  | choose j =>
    obtain ⟨job,held,taken⟩ := step_job rfl taken
    simp only [stepJob,Option.ite_none_right_eq_some,Option.some.injEq] at taken
    obtain ⟨pc,rfl⟩ := taken
    exact choose_sound held pc
  | send j =>
    obtain ⟨job,held,taken⟩ := step_job rfl taken
    simp only [stepJob] at taken
    split at taken
    · rename_i pc; cases Option.some.inj taken; exact .send held pc
    · split at taken
      · rename_i pc; cases Option.some.inj taken; exact .sendOld held pc
      · cases taken
  | decref j =>
    obtain ⟨job,held,taken⟩ := step_job rfl taken
    simp only [stepJob,Option.ite_none_right_eq_some,Option.some.injEq] at taken
    obtain ⟨pc,rfl⟩ := taken
    exact .decref held pc

inductive Follows (clt : UInt32) : Pc → Pc → Prop where
  | leave : Follows clt .start .finished
  | stale : Follows clt .start .sendOld
  | unguarded : clt = 0 → Follows clt .start .run
  | guarded : clt ≠ 0 → Follows clt .start .window
  | window : Follows clt .window .record
  | record : Follows clt .record .check
  | fresh : Follows clt .check .run
  | dropped : Follows clt .check .decref
  | answered : Follows clt .check .send
  | ran : Follows clt .run .add
  | added : Follows clt .add .choose
  | chose : Follows clt .choose .send
  | sent : Follows clt .send .decref
  | sentOld : Follows clt .sendOld .finished
  | decref : Follows clt .decref .finished

structure Moves (s : State C) (job job' : Job C) : Prop where
  arrived : job'.arrived = job.arrived
  pdu : job'.pdu = job.pdu
  pc : Follows job.h.cltNonce job.pc job'.pc
  conn : job'.conn = job.conn ∨ (job.pc = .choose ∧ s.conns job.h.cltNonce = some (some job'.conn))

omit [DecidableEq C] in
theorem Moves.h (moves : Moves s job job') : job'.h = job.h := by simp [Job.h,moves.pdu]

omit [DecidableEq C] in
theorem afterCheck_moves (answer : Answer) (pc : job.pc = .check) : Moves s job (afterCheck job answer) := by
  unfold afterCheck
  split
  · exact ⟨rfl,rfl,pc ▸ .fresh,.inl rfl⟩
  · exact ⟨rfl,rfl,pc ▸ .dropped,.inl rfl⟩
  · exact ⟨rfl,rfl,pc ▸ .answered,.inl rfl⟩
  · exact ⟨rfl,rfl,pc ▸ .answered,.inl rfl⟩

theorem step_jobs (step : Step cfg s label s') :
    s'.jobs = s.jobs ∨ (∃ c pdu junk rest, s.queue = (c,pdu) :: rest ∧
      s'.jobs = s.jobs ++ [⟨c,c,pdu,junk,[],.start⟩]) ∨
    ∃ (j : Nat) (job job' : Job C), label.job = some j ∧ s.jobs[j]? = some job ∧ s'.jobs = s.jobs.set j job' ∧
      Moves s job job' := by
  cases step with
  | accept | collect | dies | refuse | enqueue | runCrash | chooseNull | chooseMissing => exact .inl rfl
  | take waiting => exact .inr (.inl ⟨_,_,_,_,waiting,rfl⟩)
  | check held pc => exact .inr (.inr ⟨_,_,_,rfl,held,rfl,afterCheck_moves _ pc⟩)
  | leave held pc => exact .inr (.inr ⟨_,_,_,rfl,held,rfl,⟨rfl,rfl,pc ▸ .leave,.inl rfl⟩⟩)
  | stale held pc => exact .inr (.inr ⟨_,_,_,rfl,held,rfl,⟨rfl,rfl,pc ▸ .stale,.inl rfl⟩⟩)
  | unguarded held pc _ _ zero =>
    exact .inr (.inr ⟨_,_,_,rfl,held,rfl,⟨rfl,rfl,pc ▸ .unguarded zero,.inl rfl⟩⟩)
  | guarded held pc _ _ nonzero =>
    exact .inr (.inr ⟨_,_,_,rfl,held,rfl,⟨rfl,rfl,pc ▸ .guarded nonzero,.inl rfl⟩⟩)
  | window held pc => exact .inr (.inr ⟨_,_,_,rfl,held,rfl,⟨rfl,rfl,pc ▸ .window,.inl rfl⟩⟩)
  | recordKept held pc | recordFirst held pc | recordOther held pc | recordCrash held pc =>
    exact .inr (.inr ⟨_,_,_,rfl,held,rfl,⟨rfl,rfl,pc ▸ .record,.inl rfl⟩⟩)
  | undecoded held pc | ran held pc =>
    exact .inr (.inr ⟨_,_,_,rfl,held,rfl,⟨rfl,rfl,pc ▸ .ran,.inl rfl⟩⟩)
  | add held pc | addNothing held pc =>
    exact .inr (.inr ⟨_,_,_,rfl,held,rfl,⟨rfl,rfl,pc ▸ .added,.inl rfl⟩⟩)
  | chooseKept held pc => exact .inr (.inr ⟨_,_,_,rfl,held,rfl,⟨rfl,rfl,pc ▸ .chose,.inl rfl⟩⟩)
  | chooseLatest held pc _ known =>
    exact .inr (.inr ⟨_,_,_,rfl,held,rfl,⟨rfl,rfl,pc ▸ .chose,.inr ⟨pc,known⟩⟩⟩)
  | send held pc => exact .inr (.inr ⟨_,_,_,rfl,held,rfl,⟨rfl,rfl,pc ▸ .sent,.inl rfl⟩⟩)
  | sendOld held pc => exact .inr (.inr ⟨_,_,_,rfl,held,rfl,⟨rfl,rfl,pc ▸ .sentOld,.inl rfl⟩⟩)
  | decref held pc => exact .inr (.inr ⟨_,_,_,rfl,held,rfl,⟨rfl,rfl,pc ▸ .decref,.inl rfl⟩⟩)

theorem step_job_kept (step : Step cfg s label s') (held : s.jobs[j]? = some job) :
    ∃ job', s'.jobs[j]? = some job' ∧ job'.pdu = job.pdu ∧ job'.arrived = job.arrived := by
  rcases step_jobs step with same | ⟨c,pdu,junk,rest,_,same⟩ | ⟨i,old,new,_,found,same,moves⟩ <;> rw [same]
  · exact ⟨job,held,rfl,rfl⟩
  · exact ⟨job,Machine.entry_kept held,rfl,rfl⟩
  · by_cases at_ : j = i
    · subst at_
      cases Option.some.inj (held.symm.trans found)
      exact ⟨new,Machine.entry_self found,moves.pdu,moves.arrived⟩
    · exact ⟨job,(Machine.entry_other at_).trans held,rfl,rfl⟩

theorem step_trace (step : Step cfg s label s') :
    s'.trace = s.trace ∨ ∃ event, s'.trace = s.trace ++ [event] := by
  cases step
  all_goals first | exact .inl rfl | exact .inr ⟨_,rfl⟩

theorem step_remembers_trace (step : Step cfg s label s') {event : Event C} (member : event ∈ s.trace) :
    event ∈ s'.trace := by
  rcases step_trace step with same | ⟨_,same⟩ <;> rw [same]
  · exact member
  · exact List.mem_append_left _ member

theorem record_logs (step : Step cfg s label s') (own : label.job = some j) (held : s.jobs[j]? = some job)
    (pc : job.pc = .record) : .recorded j job.h.cltNonce job.conn ∈ s'.trace := by
  have same : ∀ other : Job C, s.jobs[j]? = some other → other = job :=
    fun other again => Option.some.inj (again.symm.trans held)
  cases step with
  | recordKept found | recordFirst found | recordOther found | recordCrash found =>
    cases Option.some.inj own
    cases same _ found
    exact List.mem_append_right _ (List.mem_singleton.mpr rfl)
  | leave found other | stale found other | unguarded found other | guarded found other | window found other
  | check found other | undecoded found other | ran found other | runCrash found other | add found other
  | addNothing found other | chooseKept found other | chooseLatest found other | chooseNull found other
  | chooseMissing found other | send found other | sendOld found other | decref found other =>
    cases Option.some.inj own
    cases same _ found
    rw [pc] at other
    cases other
  | accept | collect | dies | refuse | enqueue | take => cases own

theorem check_logs (step : Step cfg s label s') (own : label.job = some j) (held : s.jobs[j]? = some job)
    (pc : job.pc = .check) : ∃ answer, s'.jobs = s.jobs.set j (afterCheck job answer) ∧
      .checked j job.h.cltNonce job.h.xid job.h.xidRep answer.stat ∈ s'.trace := by
  have same : ∀ other : Job C, s.jobs[j]? = some other → other = job :=
    fun other again => Option.some.inj (again.symm.trans held)
  cases step with
  | @check i other answer windows found =>
    cases Option.some.inj own
    cases same _ found
    exact ⟨answer,rfl,List.mem_append_right _ (List.mem_singleton.mpr rfl)⟩
  | leave found other | stale found other | unguarded found other | guarded found other | window found other
  | recordKept found other | recordFirst found other | recordOther found other | recordCrash found other
  | undecoded found other | ran found other | runCrash found other | add found other
  | addNothing found other | chooseKept found other | chooseLatest found other | chooseNull found other
  | chooseMissing found other | send found other | sendOld found other | decref found other =>
    cases Option.some.inj own
    cases same _ found
    rw [pc] at other
    cases other
  | accept | collect | dies | refuse | enqueue | take => cases own

end Steps
end YfsLab.Rpcs
