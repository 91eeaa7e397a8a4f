import YfsLab.Lib.Runs
import YfsLab.Marshall
import YfsLab.XidRepWindow
import Mathlib.Data.List.Nodup

namespace YfsLab.Rpcc

-- Where a thread stands in call1. Between two of these points it holds m_,
-- chan_m_ or ca.m, or touches only its own variables.
inductive Pc where
  | top (transmit : Bool)
  | sending
  | sent
  | waiting
  | timedOut
  | ended
  | erased
  | returned (ret : Int32) (r : Option Val)
  | bound
  deriving DecidableEq, Repr

-- rpcc::caller together with the variables of the call, call_m and call1 that
-- created it: the typed arguments, the result type and the packed request.
structure Caller where
  xid : UInt32
  un : Unmarshall
  intret : Int32
  done : Bool
  header : ReqHeader
  args : List Val
  ty : Ty
  req : List UInt8
  ch : Option Nat
  pc : Pc
  deriving DecidableEq, Repr

def Caller.gone (ca : Caller) : Bool :=
  match ca.pc with
  | .erased => true
  | .returned _ _ => true
  | .bound => true
  | _ => false

-- Connections are numbered in the order connect_to_dst made them. `callers`
-- keeps every call that was given an xid; calls_ points into it.
structure State where
  cltNonce : UInt32
  srvNonce : UInt32
  bindDone : Bool
  xid : UInt32
  retrans : Bool
  chan : Option Nat
  opened : Nat
  dead : Nat → Bool
  calls : UInt32 → Option Nat
  callers : List Caller
  xidRepWindow : List UInt32

def initial (cltNonce : UInt32) (retrans : Bool) : State :=
  {cltNonce:=cltNonce,srvNonce:=0,bindDone:=false,xid:=1,retrans:=retrans,chan:=none,opened:=0,
   dead:=fun _ => false,calls:=fun _ => none,callers:=[],xidRepWindow:=XidRepWindow.initial}

inductive Label where
  | call (proc : UInt32) (args : List Val) (ty : Ty) (junk : Nat → UInt8)
  | getRefconn (k : Nat) (connects : Bool)
  | send (k : Nat)
  | deadline (k : Nat)
  | await (k : Nat)
  | wake (k : Nat)
  | timeout (k : Nat)
  | again (k : Nat)
  | finish (k : Nat)
  | ret (k : Nat)
  | bound (k : Nat)
  | gotPdu (pdu : List UInt8)
  | connDies (c : Nat)

def front (s : State) : UInt32 := s.xidRepWindow.headD 0

def setCaller (s : State) (k : Nat) (ca : Caller) : State := {s with callers:=s.callers.set k ca}

def Refused (s : State) (proc : UInt32) : Prop :=
  (proc ≠ RpcConst.bind ∧ s.bindDone = false) ∨ (proc = RpcConst.bind ∧ s.bindDone = true)

instance (s : State) (proc : UInt32) : Decidable (Refused s proc) :=
  inferInstanceAs (Decidable ((proc ≠ RpcConst.bind ∧ s.bindDone = false) ∨ (proc = RpcConst.bind ∧ s.bindDone = true)))

def requestHeader (s : State) (proc : UInt32) : ReqHeader := ⟨s.xid,proc,s.cltNonce,s.srvNonce,front s⟩

def request (s : State) (proc : UInt32) (args : List Val) (junk : Nat → UInt8) : List UInt8 :=
  (((Marshall.new junk).puts args).packReqHeader (requestHeader s proc)).str

def newCaller (s : State) (proc : UInt32) (args : List Val) (ty : Ty) (junk : Nat → UInt8) : Caller :=
  {xid:=s.xid,un:=.null,intret:=0,done:=false,header:=requestHeader s proc,args:=args,ty:=ty,
   req:=request s proc args junk,ch:=none,pc:=.top true}

-- call and call_m up to the end of call1's first critical section. A refused
-- call returns bind_failure and changes nothing.
def call (s : State) (proc : UInt32) (args : List Val) (ty : Ty) (junk : Nat → UInt8) : State :=
  if Refused s proc then s else
  {s with
    xid:=s.xid+1
    calls:=fun x => if x = s.xid then some s.callers.length else s.calls x
    callers:=s.callers ++ [newCaller s proc args ty junk]}

-- get_refconn: a missing or dead channel is replaced, and a caller keeps its
-- old connection when no new one could be made.
def getRefconn (s : State) (k : Nat) (ca : Caller) (connects : Bool) : State :=
  let stale := match s.chan with
    | none => true
    | some c => s.dead c
  let chan := if stale then (if connects then some s.opened else none) else s.chan
  let opened := if stale && connects then s.opened+1 else s.opened
  setCaller {s with chan:=chan,opened:=opened} k {ca with ch:=chan.or ca.ch,pc:=.sending}

def chDead (s : State) (ca : Caller) : Bool :=
  match ca.ch with
  | none => true
  | some c => s.dead c

def gotPdu (s : State) (pdu : List UInt8) : State :=
  let (h,rep) := (Unmarshall.ofPdu pdu).unpackReplyHeader
  if !rep.ok then s else
  let s := {s with xidRepWindow:=XidRepWindow.updateXidRep h.xid s.xidRepWindow}
  match s.calls h.xid with
  | none => s
  | some k =>
    match s.callers[k]? with
    | none => s
    | some ca => if ca.done then s else setCaller s k {ca with un:=rep.takeIn,intret:=h.ret,done:=true}

def finish (s : State) (k : Nat) (ca : Caller) : State :=
  setCaller {s with
    calls:=fun x => if x = ca.xid then none else s.calls x
    xidRepWindow:=XidRepWindow.updateXidRep ca.xid s.xidRepWindow} k {ca with pc:=.erased}

-- The return of call1 and the rest of call_m.
def result (ca : Caller) : Int32 × Option Val :=
  let intret := if ca.done then ca.intret else RpcConst.timeoutFailure
  if intret < 0 then (intret,none) else
  let (r,u) := ca.un.get ca.ty
  if u.okdone then (intret,some r) else (RpcConst.unmarshalReplyFailure,none)

def bindResult : Pc → Option UInt32
  | .returned ret (some (.int r)) => if ret = 0 then some r.toUInt32 else none
  | _ => none

def stepCaller (s : State) (k : Nat) (ca : Caller) : Label → Option State
  | .getRefconn _ connects => if ca.pc = .top true then some (getRefconn s k ca connects) else none
  | .send _ =>
    if ca.pc = .sending ∨ ca.pc = .top false then some (setCaller s k {ca with pc:=.sent}) else none
  | .deadline _ => if ca.pc = .sent then some (setCaller s k {ca with pc:=.ended}) else none
  | .await _ => if ca.pc = .sent then some (setCaller s k {ca with pc:=.waiting}) else none
  | .wake _ => if ca.pc = .waiting ∧ ca.done = true then some (setCaller s k {ca with pc:=.ended}) else none
  | .timeout _ => if ca.pc = .waiting ∧ ca.done = false then some (setCaller s k {ca with pc:=.timedOut}) else none
  | .again _ =>
    if ca.pc = .timedOut then some (setCaller s k {ca with pc:=.top (s.retrans && chDead s ca)}) else none
  | .finish _ => if ca.pc = .ended then some (finish s k ca) else none
  | .ret _ =>
    if ca.pc = .erased then some (setCaller s k {ca with pc:=.returned (result ca).1 (result ca).2}) else none
  | .bound _ =>
    if ca.header.proc = RpcConst.bind then
      match bindResult ca.pc with
      | none => none
      | some r => some (setCaller {s with bindDone:=true,srvNonce:=r} k {ca with pc:=.bound})
    else none
  | _ => none

def Label.caller : Label → Option Nat
  | .getRefconn k _ | .send k | .deadline k | .await k | .wake k | .timeout k | .again k | .finish k
  | .ret k | .bound k => some k
  | .call .. | .gotPdu _ | .connDies _ => none

def step (s : State) : Label → Option State
  | .call proc args ty junk => some (call s proc args ty junk)
  | .gotPdu pdu => some (gotPdu s pdu)
  | .connDies c => some {s with dead:=fun other => if other = c then true else s.dead other}
  | label =>
    match label.caller with
    | none => none
    | some k =>
      match s.callers[k]? with
      | none => none
      | some ca => stepCaller s k ca label

-- The request PDU a send puts on its connection. A connection that is dead on
-- the client's side takes nothing; with transmit false nothing is sent.
def emits (s : State) : Label → Option (Nat × List UInt8)
  | .send k =>
    match s.callers[k]? with
    | none => none
    | some ca =>
      if ca.pc = .sending then
        match ca.ch with
        | none => none
        | some c => if s.dead c then none else some (c,frame ca.req)
      else none
  | _ => none

variable {s s' : State} {label : Label} {k : Nat} {ca ca' : Caller}

structure Similar (ca ca' : Caller) : Prop where
  xid : ca'.xid = ca.xid
  header : ca'.header = ca.header
  args : ca'.args = ca.args
  ty : ca'.ty = ca.ty
  req : ca'.req = ca.req
  un : ca'.un = ca.un
  intret : ca'.intret = ca.intret
  done : ca'.done = ca.done
  gone : ca'.gone = ca.gone

theorem Similar.refl (ca : Caller) : Similar ca ca := ⟨rfl,rfl,rfl,rfl,rfl,rfl,rfl,rfl,rfl⟩

structure Quiet (s s' : State) : Prop where
  cltNonce : s'.cltNonce = s.cltNonce
  xid : s'.xid = s.xid
  calls : s'.calls = s.calls
  window : s'.xidRepWindow = s.xidRepWindow
  length : s'.callers.length = s.callers.length
  callers : ∀ (k : Nat) (ca : Caller), s.callers[k]? = some ca → ∃ ca', s'.callers[k]? = some ca' ∧ Similar ca ca'

theorem Quiet.backward (quiet : Quiet s s') (held : s'.callers[k]? = some ca') :
    ∃ ca, s.callers[k]? = some ca ∧ Similar ca ca' := by
  have bound : k < s.callers.length := by
    have := (List.getElem?_eq_some_iff.mp held).1
    rw [quiet.length] at this
    exact this
  obtain ⟨other,found,similar⟩ := quiet.callers k _ (List.getElem?_eq_getElem bound)
  cases Option.some.inj (found.symm.trans held)
  exact ⟨_,List.getElem?_eq_getElem bound,similar⟩

theorem quiet_set {s base : State} (held : s.callers[k]? = some ca) (similar : Similar ca ca')
    (cltNonce : base.cltNonce = s.cltNonce) (xid : base.xid = s.xid) (calls : base.calls = s.calls)
    (window : base.xidRepWindow = s.xidRepWindow) (callers : base.callers = s.callers) :
    Quiet s (setCaller base k ca') := by
  refine ⟨cltNonce,xid,calls,window,by simp [setCaller,callers],?_⟩
  intro other old found
  simp only [setCaller,callers]
  by_cases same : other = k
  · subst same
    cases Option.some.inj (held.symm.trans found)
    have bound := (List.getElem?_eq_some_iff.mp held).1
    exact ⟨ca',by simp [bound],similar⟩
  · exact ⟨old,by rw [List.getElem?_set_ne (Ne.symm same)]; exact found,.refl _⟩

theorem quiet_refl (s : State) : Quiet s s := ⟨rfl,rfl,rfl,rfl,rfl,fun _ ca held => ⟨ca,held,.refl ca⟩⟩

theorem step_caller (own : label.caller = some k) (taken : step s label = some s') :
    ∃ ca, s.callers[k]? = some ca ∧ stepCaller s k ca label = some s' := by
  have unfolded : step s label = match s.callers[k]? with
      | none => none
      | some ca => stepCaller s k ca label := by
    cases label <;> simp_all [step,Label.caller]
  rw [unfolded] at taken
  cases held : s.callers[k]? with
  | none => simp [held] at taken
  | some ca => exact ⟨ca,rfl,by simpa [held] using taken⟩

theorem quiet_pc (held : s.callers[k]? = some ca) (stays : ({ca with pc:=pc} : Caller).gone = ca.gone) :
    Quiet s (setCaller s k {ca with pc:=pc}) :=
  quiet_set held ⟨rfl,rfl,rfl,rfl,rfl,rfl,rfl,rfl,stays⟩ rfl rfl rfl rfl rfl

-- The rules of a calling thread: it takes a connection, it goes on to another
-- point of call1, it leaves its last critical section, or its bind returns.
inductive CallerStep (s : State) (k : Nat) (ca : Caller) : Label → State → Prop where
  | getRefconn : ca.pc = .top true → CallerStep s k ca any (getRefconn s k ca connects)
  | moves : ca.pc ≠ .bound → ({ca with pc:=pc} : Caller).gone = ca.gone →
      (∀ ret r, pc = .returned ret r → (ret,r) = result ca) → CallerStep s k ca any (setCaller s k {ca with pc:=pc})
  | finish : ca.pc = .ended → CallerStep s k ca (.finish n) (finish s k ca)
  | bound : ca.header.proc = RpcConst.bind → bindResult ca.pc = some r →
      CallerStep s k ca any (setCaller {s with bindDone:=true,srvNonce:=r} k {ca with pc:=.bound})

theorem stepCaller_sound (taken : stepCaller s k ca label = some s') : CallerStep s k ca label s' := by
  cases label with
  | call | gotPdu | connDies => cases taken
  | getRefconn n connects =>
    simp only [stepCaller,Option.ite_none_right_eq_some,Option.some.injEq] at taken
    obtain ⟨pc,rfl⟩ := taken
    exact .getRefconn pc
  | send n =>
    simp only [stepCaller,Option.ite_none_right_eq_some,Option.some.injEq] at taken
    obtain ⟨pc,rfl⟩ := taken
    rcases pc with pc | pc
    · exact .moves (by simp [pc]) (by simp [Caller.gone,pc]) (fun ret r now => by cases now)
    · exact .moves (by simp [pc]) (by simp [Caller.gone,pc]) (fun ret r now => by cases now)
  | deadline n | await n | again n =>
    simp only [stepCaller,Option.ite_none_right_eq_some,Option.some.injEq] at taken
    obtain ⟨pc,rfl⟩ := taken
    exact .moves (by simp [pc]) (by simp [Caller.gone,pc]) (fun ret r now => by cases now)
  | wake n | timeout n =>
    simp only [stepCaller,Option.ite_none_right_eq_some,Option.some.injEq] at taken
    obtain ⟨⟨pc,_⟩,rfl⟩ := taken
    exact .moves (by simp [pc]) (by simp [Caller.gone,pc]) (fun ret r now => by cases now)
  | finish n =>
    simp only [stepCaller,Option.ite_none_right_eq_some,Option.some.injEq] at taken
    obtain ⟨pc,rfl⟩ := taken
    exact .finish pc
  | ret n =>
    simp only [stepCaller,Option.ite_none_right_eq_some,Option.some.injEq] at taken
    obtain ⟨pc,rfl⟩ := taken
    exact .moves (by simp [pc]) (by simp [Caller.gone,pc]) (fun ret r now => by cases now; rfl)
  | bound n =>
    simp only [stepCaller,Option.ite_none_right_eq_some] at taken
    obtain ⟨bind,taken⟩ := taken
    split at taken
    · cases taken
    · rename_i r finished
      cases Option.some.inj taken
      exact .bound bind finished

theorem bindResult_some {pc : Pc} (finished : bindResult pc = some v) :
    ∃ r, pc = .returned 0 (some (.int r)) ∧ r.toUInt32 = v := by
  unfold bindResult at finished
  split at finished
  · rename_i ret r
    obtain ⟨zero,same⟩ := Option.ite_none_right_eq_some.mp finished
    exact ⟨r,by rw [zero],Option.some.inj same⟩
  · simp at finished

theorem step_cases (taken : step s label = some s') :
    Quiet s s' ∨
    (∃ proc args ty junk, label = .call proc args ty junk ∧ ¬ Refused s proc ∧ s' = call s proc args ty junk) ∨
    (∃ pdu, label = .gotPdu pdu ∧ (Unmarshall.ofPdu pdu).unpackReplyHeader.2.ok = true ∧ s' = gotPdu s pdu) ∨
    (∃ k ca, label = .finish k ∧ s.callers[k]? = some ca ∧ ca.pc = .ended ∧ s' = finish s k ca) := by
  cases own : label.caller with
  | some k =>
    obtain ⟨ca,held,taken⟩ := step_caller own taken
    cases stepCaller_sound taken with
    | getRefconn pc =>
      exact .inl (quiet_set held ⟨rfl,rfl,rfl,rfl,rfl,rfl,rfl,rfl,by simp [Caller.gone,pc]⟩ rfl rfl rfl rfl rfl)
    | moves _ stays => exact .inl (quiet_pc held stays)
    | finish pc =>
      cases Option.some.inj own
      exact .inr (.inr (.inr ⟨k,ca,rfl,held,pc,rfl⟩))
    | bound _ finished =>
      obtain ⟨r,pc,_⟩ := bindResult_some finished
      exact .inl (quiet_set held ⟨rfl,rfl,rfl,rfl,rfl,rfl,rfl,rfl,by simp [Caller.gone,pc]⟩ rfl rfl rfl rfl rfl)
  | none =>
    cases label with
    | call proc args ty junk =>
      cases Option.some.inj taken
      by_cases refused : Refused s proc
      · refine .inl ?_
        unfold call
        rw [if_pos refused]
        exact quiet_refl s
      · exact .inr (.inl ⟨proc,args,ty,junk,rfl,refused,rfl⟩)
    | gotPdu pdu =>
      cases Option.some.inj taken
      by_cases good : (Unmarshall.ofPdu pdu).unpackReplyHeader.2.ok = true
      · exact .inr (.inr (.inl ⟨pdu,rfl,good,rfl⟩))
      · refine .inl ?_
        unfold gotPdu
        simp only [good]
        exact quiet_refl s
    | connDies c =>
      cases Option.some.inj taken
      exact .inl ⟨rfl,rfl,rfl,rfl,rfl,fun _ ca held => ⟨ca,held,.refl ca⟩⟩
    | getRefconn | send | deadline | await | wake | timeout | again | finish | ret | bound => cases own

-- The reply of the call was received, or its caller gave up waiting.
def Settled (s : State) (x : UInt32) : Prop :=
  ∃ ca ∈ s.callers, ca.xid = x ∧ (ca.done = true ∨ ca.gone = true)

structure Invariant (s : State) : Prop where
  numbered : ∀ (k : Nat) (ca : Caller), s.callers[k]? = some ca →
    ca.xid = UInt32.ofNat (k+1) ∧ ca.header.xid = ca.xid
  next : s.xid = UInt32.ofNat (s.callers.length+1)
  pending : ∀ x k, s.calls x = some k ↔ ∃ ca, s.callers[k]? = some ca ∧ ca.xid = x ∧ ca.gone = false
  window : ∃ low above, s.xidRepWindow = low :: above ∧ XidRepWindow.Prefix (Settled s) low above

def Few (s : State) : Prop := s.callers.length < 2^32-1

instance (s : State) : Decidable (Few s) := inferInstanceAs (Decidable (_ < _))

theorem initial_invariant (cltNonce : UInt32) (retrans : Bool) : Invariant (initial cltNonce retrans) := by
  refine ⟨by simp [initial],rfl,by simp [initial],0,[],rfl,?_⟩
  have nobody : Settled (initial cltNonce retrans) = fun _ => False := by
    funext x; simp [Settled,initial]
  rw [nobody]
  exact XidRepWindow.initial_prefix

theorem ofNat_toNat {n : Nat} (small : n < 2^32) : (UInt32.ofNat n).toNat = n := by
  rw [UInt32.toNat_ofNat']; exact Nat.mod_eq_of_lt small

theorem Invariant.distinct (valid : Invariant s) (few : Few s) {k j : Nat} {ca cb : Caller}
    (heldA : s.callers[k]? = some ca) (heldB : s.callers[j]? = some cb) (same : ca.xid = cb.xid) : k = j := by
  have boundA := (List.getElem?_eq_some_iff.mp heldA).1
  have boundB := (List.getElem?_eq_some_iff.mp heldB).1
  unfold Few at few
  have values := congrArg UInt32.toNat same
  rw [(valid.numbered k ca heldA).1,(valid.numbered j cb heldB).1,ofNat_toNat (by omega),
    ofNat_toNat (by omega)] at values
  omega

theorem Invariant.settled_small (valid : Invariant s) (few : Few s) :
    ∀ x, Settled s x → 1 ≤ x.toNat ∧ x.toNat ≤ s.callers.length := by
  rintro x ⟨ca,member,rfl,_⟩
  obtain ⟨k,bound,rfl⟩ := List.getElem_of_mem member
  have number := (valid.numbered k _ (List.getElem?_eq_getElem bound)).1
  unfold Few at few
  rw [number,ofNat_toNat (by omega)]
  omega

theorem Quiet.settled (quiet : Quiet s s') (x : UInt32) : Settled s' x ↔ Settled s x := by
  constructor
  · rintro ⟨ca',member,rfl,how⟩
    obtain ⟨k,bound,rfl⟩ := List.getElem_of_mem member
    obtain ⟨ca,held,similar⟩ := quiet.backward (List.getElem?_eq_getElem bound)
    exact ⟨ca,List.mem_of_getElem? held,similar.xid.symm,by rwa [similar.done,similar.gone] at how⟩
  · rintro ⟨ca,member,rfl,how⟩
    obtain ⟨k,bound,rfl⟩ := List.getElem_of_mem member
    obtain ⟨ca',held,similar⟩ := quiet.callers k _ (List.getElem?_eq_getElem bound)
    exact ⟨ca',List.mem_of_getElem? held,similar.xid,by rwa [similar.done,similar.gone]⟩

theorem Quiet.invariant (quiet : Quiet s s') (valid : Invariant s) : Invariant s' := by
  refine ⟨?_,by rw [quiet.xid,quiet.length]; exact valid.next,?_,?_⟩
  · intro k ca' held
    obtain ⟨ca,old,similar⟩ := quiet.backward held
    rw [similar.xid,similar.header]
    exact valid.numbered k ca old
  · intro x k
    rw [quiet.calls,valid.pending]
    constructor
    · rintro ⟨ca,held,same,here⟩
      obtain ⟨ca',now,similar⟩ := quiet.callers k ca held
      exact ⟨ca',now,similar.xid.trans same,similar.gone.trans here⟩
    · rintro ⟨ca',held,same,here⟩
      obtain ⟨ca,old,similar⟩ := quiet.backward held
      exact ⟨ca,old,similar.xid.symm.trans same,similar.gone.symm.trans here⟩
  · obtain ⟨low,above,window,covered⟩ := valid.window
    have same : Settled s' = Settled s := funext fun x => propext (quiet.settled x)
    exact ⟨low,above,quiet.window.trans window,same ▸ covered⟩

-- The window after update_xid_rep(x), for a step that settles x and nothing else.
theorem window_settles (valid : Invariant s) (few : Few s) (issued : 1 ≤ x.toNat ∧ x.toNat ≤ s.callers.length)
    (settles : ∀ y, Settled s' y ↔ Settled s y ∨ y = x)
    (window : s'.xidRepWindow = XidRepWindow.updateXidRep x s.xidRepWindow) :
    ∃ low above, s'.xidRepWindow = low :: above ∧ XidRepWindow.Prefix (Settled s') low above := by
  obtain ⟨low,above,before,covered⟩ := valid.window
  have limit : ∀ y : UInt32, y.toNat ≤ s.callers.length → y < 0xffffffff := by
    intro y small
    unfold Few at few
    rw [UInt32.lt_iff_toNat_lt]
    have : (0xffffffff : UInt32).toNat = 2^32-1 := rfl
    omega
  obtain ⟨low',above',after,covers⟩ := XidRepWindow.updateXidRep_prefix covered
    (fun y settled => limit y (valid.settled_small few y settled).2) (limit x issued.2)
  have same : Settled s' = fun y => Settled s y ∨ y = x := funext fun y => propext (settles y)
  exact ⟨low',above',by rw [window,before,after],same ▸ covers⟩

theorem mem_set_iff (held : s.callers[k]? = some ca) (other : Caller) :
    other ∈ s.callers.set k ca' ↔ other = ca' ∨ ∃ j : Nat, j ≠ k ∧ s.callers[j]? = some other := by
  have bound := (List.getElem?_eq_some_iff.mp held).1
  simp only [List.mem_iff_getElem?,List.getElem?_set]
  constructor
  · rintro ⟨j,found⟩
    split at found
    · simp_all
    · rename_i different; exact .inr ⟨j,Ne.symm different,found⟩
  · rintro (rfl | ⟨j,different,found⟩)
    · exact ⟨k,by simp [bound]⟩
    · exact ⟨j,by simp [Ne.symm different,found]⟩

theorem set_settles (after : s'.callers = s.callers.set k ca') (held : s.callers[k]? = some ca)
    (xid : ca'.xid = ca.xid) (now : ca'.done = true ∨ ca'.gone = true) (y : UInt32) :
    Settled s' y ↔ Settled s y ∨ y = ca.xid := by
  unfold Settled
  rw [after]
  constructor
  · rintro ⟨other,member,rfl,how⟩
    rcases (mem_set_iff held other).mp member with rfl | ⟨j,_,found⟩
    · exact .inr xid
    · exact .inl ⟨other,List.mem_of_getElem? found,rfl,how⟩
  · rintro (⟨other,member,rfl,how⟩ | rfl)
    · obtain ⟨j,bound,rfl⟩ := List.getElem_of_mem member
      by_cases same : j = k
      · subst same
        cases Option.some.inj ((List.getElem?_eq_getElem bound).symm.trans held)
        exact ⟨ca',(mem_set_iff held ca').mpr (.inl rfl),xid,now⟩
      · exact ⟨_,(mem_set_iff held _).mpr (.inr ⟨j,same,List.getElem?_eq_getElem bound⟩),rfl,how⟩
    · exact ⟨ca',(mem_set_iff held ca').mpr (.inl rfl),xid,now⟩

theorem set_numbered (valid : Invariant s) (after : s'.callers = s.callers.set k ca')
    (held : s.callers[k]? = some ca) (xid : ca'.xid = ca.xid) (header : ca'.header = ca.header)
    (j : Nat) (other : Caller) (found : s'.callers[j]? = some other) :
    other.xid = UInt32.ofNat (j+1) ∧ other.header.xid = other.xid := by
  have bound := (List.getElem?_eq_some_iff.mp held).1
  simp only [after,List.getElem?_set] at found
  split at found
  · rename_i same
    subst same
    simp only [Option.some.injEq] at found
    subst found
    rw [xid,header]
    exact valid.numbered k ca held
  · exact valid.numbered j other found

theorem fresh_xid (valid : Invariant s) (room : s.callers.length + 1 < 2^32) {j : Nat} {ca : Caller}
    (held : s.callers[j]? = some ca) : ca.xid ≠ s.xid := by
  intro same
  have inside := (List.getElem?_eq_some_iff.mp held).1
  have values := congrArg UInt32.toNat same
  rw [(valid.numbered j ca held).1,valid.next,ofNat_toNat (by omega),ofNat_toNat (by omega)] at values
  omega

theorem append_pending (valid : Invariant s) (room : s.callers.length + 1 < 2^32) {made : Caller}
    (xid : made.xid = s.xid) (running : made.gone = false) (x : UInt32) (k : Nat) :
    (if x = s.xid then some s.callers.length else s.calls x) = some k ↔
      ∃ ca, (s.callers ++ [made])[k]? = some ca ∧ ca.xid = x ∧ ca.gone = false := by
  by_cases same : x = s.xid
  · subst same
    simp only [if_true,Option.some.injEq]
    constructor
    · intro last
      exact ⟨made,by simp [← last],xid,running⟩
    · intro ⟨ca,held,equal,_⟩
      rcases Machine.entry_append held with old | ⟨last,_⟩
      · exact absurd equal (fresh_xid valid room old)
      · exact last.symm
  · simp only [same,if_false]
    rw [valid.pending x k]
    constructor
    · intro ⟨ca,held,equal,here⟩
      exact ⟨ca,Machine.entry_kept held,equal,here⟩
    · intro ⟨ca,held,equal,here⟩
      rcases Machine.entry_append held with old | ⟨_,new⟩
      · exact ⟨ca,old,equal,here⟩
      · exact absurd (equal.symm.trans (new ▸ xid)) same

theorem append_settled {made : Caller} (after : s'.callers = s.callers ++ [made]) (waiting : made.done = false)
    (running : made.gone = false) (x : UInt32) : Settled s' x ↔ Settled s x := by
  unfold Settled
  rw [after]
  constructor
  · intro ⟨ca,member,same,how⟩
    rcases List.mem_append.mp member with old | new
    · exact ⟨ca,old,same,how⟩
    · rw [List.mem_singleton.mp new,waiting,running] at how
      simp at how
  · intro ⟨ca,member,same,how⟩
    exact ⟨ca,List.mem_append_left _ member,same,how⟩

theorem call_callers (accepted : ¬ Refused s proc) :
    (call s proc args ty junk).callers = s.callers ++ [newCaller s proc args ty junk] := by
  simp [call,accepted]

theorem call_invariant (valid : Invariant s) (few : Few (call s proc args ty junk)) (accepted : ¬ Refused s proc) :
    Invariant (call s proc args ty junk) := by
  have appended : (call s proc args ty junk).callers = _ := call_callers accepted
  have bound : s.callers.length + 1 < 2^32-1 := by simpa [Few,appended] using few
  refine ⟨?_,?_,?_,?_⟩
  · intro k ca held
    rw [appended] at held
    rcases Machine.entry_append held with old | ⟨rfl,rfl⟩
    · exact valid.numbered k ca old
    · exact ⟨valid.next,rfl⟩
  · rw [appended,call,if_neg accepted]
    show s.xid+1 = _
    rw [valid.next]
    apply UInt32.toNat_inj.mp
    rw [UInt32.toNat_add,ofNat_toNat (by omega)]
    simp only [List.length_append,List.length_cons,List.length_nil]
    rw [ofNat_toNat (by omega)]
    exact Nat.mod_eq_of_lt (by simp; omega)
  · rw [appended,call,if_neg accepted]
    exact append_pending valid (by omega) rfl rfl
  · obtain ⟨low,above,window,covered⟩ := valid.window
    have kept : (call s proc args ty junk).xidRepWindow = s.xidRepWindow := by simp [call,accepted]
    have same : Settled (call s proc args ty junk) = Settled s :=
      funext fun x => propext (append_settled appended rfl rfl x)
    exact ⟨low,above,kept.trans window,same ▸ covered⟩

theorem gotPdu_cases (good : (Unmarshall.ofPdu pdu).unpackReplyHeader.2.ok = true) :
    let h := (Unmarshall.ofPdu pdu).unpackReplyHeader.1
    let window := XidRepWindow.updateXidRep h.xid s.xidRepWindow
    (gotPdu s pdu = {s with xidRepWindow:=window} ∧
      ∀ (k : Nat) (ca : Caller), s.calls h.xid = some k → s.callers[k]? = some ca → ca.done = true) ∨
    ∃ (k : Nat) (ca : Caller), s.calls h.xid = some k ∧ s.callers[k]? = some ca ∧ ca.done = false ∧
      gotPdu s pdu = setCaller {s with xidRepWindow:=window} k
        {ca with un:=(Unmarshall.ofPdu pdu).unpackReplyHeader.2.takeIn,intret:=h.ret,done:=true} := by
  simp only [gotPdu,good]
  cases pending : s.calls (Unmarshall.ofPdu pdu).unpackReplyHeader.1.xid with
  | none => left; simp
  | some k =>
    cases held : s.callers[k]? with
    | none =>
      left
      simp only [held]
      refine ⟨by simp,?_⟩
      rintro j ca equal found
      cases Option.some.inj equal
      simp [held] at found
    | some ca =>
      cases finished : ca.done with
      | true =>
        left
        refine ⟨by simp [held,finished],?_⟩
        rintro j cb equal found
        cases Option.some.inj equal
        cases Option.some.inj (held.symm.trans found)
        exact finished
      | false => right; exact ⟨k,ca,rfl,held,finished,by simp [held,finished]⟩

def Answers (s : State) (pdu : List UInt8) : Prop :=
  (Unmarshall.ofPdu pdu).unpackReplyHeader.2.ok = true →
    ∃ ca ∈ s.callers, ca.xid = (Unmarshall.ofPdu pdu).unpackReplyHeader.1.xid

theorem gotPdu_invariant (valid : Invariant s) (few : Few s) (answers : Answers s pdu)
    (good : (Unmarshall.ofPdu pdu).unpackReplyHeader.2.ok = true) : Invariant (gotPdu s pdu) := by
  obtain ⟨asked,member,xid⟩ := answers good
  obtain ⟨j,inside,rfl⟩ := List.getElem_of_mem member
  have askedAt := List.getElem?_eq_getElem inside
  have issued : 1 ≤ (Unmarshall.ofPdu pdu).unpackReplyHeader.1.xid.toNat ∧
      (Unmarshall.ofPdu pdu).unpackReplyHeader.1.xid.toNat ≤ s.callers.length := by
    rw [← xid,(valid.numbered j _ askedAt).1]
    unfold Few at few
    rw [ofNat_toNat (by omega)]
    omega
  rcases gotPdu_cases good with ⟨same,already⟩ | ⟨k,ca,pending,held,open_,same⟩
  · -- Not pending any more, or done before: the xid was settled already.
    rw [same]
    refine ⟨valid.numbered,valid.next,valid.pending,?_⟩
    refine window_settles valid few issued (fun y => ?_) rfl
    refine ⟨.inl,fun either => either.elim id ?_⟩
    rintro rfl
    refine ⟨s.callers[j],member,xid,?_⟩
    cases here : s.callers[j].gone with
    | true => exact .inr rfl
    | false => exact .inl (already j _ ((valid.pending _ j).mpr ⟨_,askedAt,xid,here⟩) askedAt)
  · have identity : ca.xid = (Unmarshall.ofPdu pdu).unpackReplyHeader.1.xid := by
      obtain ⟨cb,found,equal,_⟩ := (valid.pending _ k).mp pending
      cases Option.some.inj (held.symm.trans found)
      exact equal
    have after := congrArg State.callers same
    have calls := congrArg State.calls same
    have window := congrArg State.xidRepWindow same
    have counter := congrArg State.xid same
    simp only [setCaller] at after calls window counter
    generalize gotPdu s pdu = s' at after calls window counter ⊢
    refine ⟨set_numbered valid after held rfl rfl,?_,?_,?_⟩
    · rw [counter,after,List.length_set]
      exact valid.next
    · intro x position
      have bound := (List.getElem?_eq_some_iff.mp held).1
      rw [calls,valid.pending,after,List.getElem?_set]
      by_cases at_ : k = position
      · subst at_
        rw [held]
        simp [bound,Caller.gone]
      · simp [at_]
    · refine window_settles valid few issued (fun y => ?_) window
      rw [← identity]
      exact set_settles after held rfl (.inl rfl) y

theorem finish_invariant (valid : Invariant s) (few : Few s) (held : s.callers[k]? = some ca)
    (leaving : ca.pc = .ended) : Invariant (finish s k ca) := by
  have bound := (List.getElem?_eq_some_iff.mp held).1
  have here : ca.gone = false := by simp [Caller.gone,leaving]
  refine ⟨set_numbered valid rfl held rfl rfl,?_,?_,?_⟩
  · simpa [finish,setCaller] using valid.next
  · intro x position
    show (if x = ca.xid then none else s.calls x) = some position ↔ _
    simp only [finish,setCaller,List.getElem?_set]
    by_cases at_ : k = position
    · subst at_
      simp only [if_true,bound,Option.some.injEq]
      constructor
      · intro found
        split at found
        · cases found
        · rename_i different
          obtain ⟨cb,again,equal,_⟩ := (valid.pending x k).mp found
          cases Option.some.inj (held.symm.trans again)
          exact absurd equal.symm different
      · rintro ⟨cb,rfl,_,still⟩
        simp [Caller.gone] at still
    · simp only [at_,if_false]
      by_cases same : x = ca.xid
      · subst same
        simp only [if_true,reduceCtorEq,false_iff]
        rintro ⟨cb,found,equal,_⟩
        exact at_ (valid.distinct few held found equal.symm)
      · simp only [same,if_false]
        exact valid.pending x position
  · have issued : 1 ≤ ca.xid.toNat ∧ ca.xid.toNat ≤ s.callers.length := by
      rw [(valid.numbered k ca held).1]
      unfold Few at few
      rw [ofNat_toNat (by omega)]
      omega
    exact window_settles valid few issued (set_settles rfl held rfl (.inr rfl)) rfl

def Answering (s : State) : Label → Prop
  | .gotPdu pdu => Answers s pdu
  | _ => True

theorem step_length (taken : step s label = some s') : s.callers.length ≤ s'.callers.length := by
  rcases step_cases taken with quiet | ⟨proc,args,ty,junk,rfl,accepted,rfl⟩ | ⟨pdu,rfl,good,rfl⟩ |
    ⟨k,ca,rfl,held,_,rfl⟩
  · exact Nat.le_of_eq quiet.length.symm
  · simp [call,accepted]
  · rcases gotPdu_cases good with ⟨same,_⟩ | ⟨k,ca,_,_,_,same⟩ <;> rw [same]
    simp [setCaller]
  · simp [finish,setCaller]

theorem step_invariant (valid : Invariant s) (few : Few s') (answering : Answering s label)
    (taken : step s label = some s') : Invariant s' := by
  have before : Few s := Nat.lt_of_le_of_lt (step_length taken) few
  rcases step_cases taken with quiet | ⟨proc,args,ty,junk,rfl,accepted,rfl⟩ | ⟨pdu,rfl,good,rfl⟩ |
    ⟨k,ca,rfl,held,leaving,rfl⟩
  · exact quiet.invariant valid
  · exact call_invariant valid few accepted
  · exact gotPdu_invariant valid before answering good
  · exact finish_invariant valid before held leaving

theorem runs_invariant (path : Machine.Runs step Answering (initial cltNonce retrans) labels s) (few : Few s) :
    Invariant s := by
  induction path with
  | nil => exact initial_invariant _ _
  | snoc prior answering taken ih =>
    exact step_invariant (ih (Nat.lt_of_le_of_lt (step_length taken) few)) few answering taken

theorem request_layout (s : State) (proc : UInt32) (args : List Val) (junk : Nat → UInt8) :
    ∃ size : List UInt8, size.length = 4 ∧
      request s proc args junk = size ++ (requestHeader s proc).encode ++ encodes args := by
  have fresh : (Marshall.new junk).str.length = 24 := by simp [Marshall.new,rpcHeaderSz]
  refine ⟨(Marshall.new junk).str.take 4,by rw [List.length_take]; omega,?_⟩
  have room : rpcHeaderSz ≤ ((Marshall.new junk).puts args).ind := by
    rw [← Marshall.str_length,Marshall.str_puts,List.length_append,fresh]
    exact Nat.le_add_right _ _
  rw [request,Marshall.str_packReqHeader _ _ room,Marshall.str_puts,
    List.take_append_of_le_length (by omega),List.drop_left' fresh]

theorem request_header (s : State) (proc : UInt32) (args : List Val) (junk : Nat → UInt8) :
    (Unmarshall.ofPdu (request s proc args junk)).unpackReqHeader.1 = requestHeader s proc := by
  obtain ⟨size,four,layout⟩ := request_layout s proc args junk
  rw [layout,Unmarshall.unpackReqHeader_pdu size _ four]

theorem front_settled (valid : Invariant s) : ∀ x, 1 ≤ x → x ≤ front s → Settled s x := by
  obtain ⟨low,above,window,covered⟩ := valid.window
  intro x positive small
  rw [front,window] at small
  exact covered.below x positive small

theorem front_below (valid : Invariant s) (few : Few s) : front s < s.xid := by
  have counter := congrArg UInt32.toNat valid.next
  have bound : s.callers.length + 1 < 2^32 := by unfold Few at few; omega
  rw [ofNat_toNat bound] at counter
  rw [UInt32.lt_iff_toNat_lt,counter]
  by_cases zero : 1 ≤ front s
  · have settled := front_settled valid (front s) zero (UInt32.le_refl _)
    have := (valid.settled_small few _ settled).2
    omega
  · have : (front s).toNat = 0 := by
      have small : front s < 1 := by simpa using zero
      rw [UInt32.lt_iff_toNat_lt] at small
      have one : (1 : UInt32).toNat = 1 := rfl
      omega
    omega

theorem xids_nodup (valid : Invariant s) (few : Few s) : (s.callers.map Caller.xid).Nodup := by
  rw [List.nodup_iff_injective_get]
  intro i j same
  have left := i.isLt
  have right := j.isLt
  simp only [List.length_map] at left right
  simp only [List.get_eq_getElem,List.getElem_map] at same
  exact Fin.ext (valid.distinct few (List.getElem?_eq_getElem left) (List.getElem?_eq_getElem right) same)

theorem call_acknowledges_settled (path : Machine.Runs step Answering (initial cltNonce retrans) labels s)
    (accepted : ¬ Refused s proc) (few : Few (call s proc args ty junk)) :
    let made := newCaller s proc args ty junk
    (call s proc args ty junk).callers = s.callers ++ [made] ∧
    (Unmarshall.ofPdu made.req).unpackReqHeader.1 = made.header ∧
    made.header.xidRep < made.header.xid ∧
    ((s.callers ++ [made]).map Caller.xid).Nodup ∧
    ∀ x, 1 ≤ x → x ≤ made.header.xidRep →
      ∃ ca ∈ s.callers, ca.xid = x ∧ (ca.done = true ∨ ca.gone = true) := by
  have appended : (call s proc args ty junk).callers = _ := call_callers accepted
  have before : Few s := by
    unfold Few at few ⊢
    rw [appended,List.length_append] at few
    omega
  have valid := runs_invariant path before
  have after := call_invariant valid few accepted
  refine ⟨appended,request_header s proc args junk,front_below valid before,?_,front_settled valid⟩
  rw [← appended]
  exact xids_nodup after few

-- A bind whose reply has arrived is acknowledged by the next request.
theorem second_request_acknowledges_first :
    ∃ s, Machine.exec step (initial 7 true) [.call 1 [.int 0] .int (fun _ => 0),
        .gotPdu [0,0,0,28,0,0,0,1,0,0,0,0,0,0,0,0,0,0,0,0,0,0,0,0,0,0,0,9]] = some s ∧
      (newCaller s 1 [.int 0] .int (fun _ => 0)).header.xidRep = 1 ∧
      (newCaller s 1 [.int 0] .int (fun _ => 0)).header.xidRep <
        (newCaller s 1 [.int 0] .int (fun _ => 0)).header.xid := by
  refine ⟨_,rfl,by decide +kernel,?_⟩
  have path : Machine.Runs step Answering (initial 7 true) [.call 1 [.int 0] .int (fun _ => 0),
      .gotPdu [0,0,0,28,0,0,0,1,0,0,0,0,0,0,0,0,0,0,0,0,0,0,0,0,0,0,0,9]] _ :=
    ((Machine.Runs.nil).snoc trivial rfl).snoc (fun _ => ⟨_,List.mem_cons_self,by decide +kernel⟩) rfl
  exact (call_acknowledges_settled path (show ¬ Refused _ 1 by decide +kernel) (by decide +kernel)).2.2.1

end YfsLab.Rpcc
