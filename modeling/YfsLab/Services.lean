import YfsLab.AtMostOnce
import YfsLab.ExtentServer
import YfsLab.Lib.Sequential
import YfsLab.RightResult

namespace YfsLab.Services
open RpcSystem (Conn)
open Rpcc (Caller)
open AtMostOnce (PromptAll ExecutesOnce)

-- What a server registers: the types of its methods, and the object they work
-- on one at a time.
structure Service (In S : Type) where
  types : UInt32 → Option (List Ty × Ty)
  object : Sequential.Object (UInt32 × List Val) (Int32 × Val) In S

def Service.config {In S : Type} (service : Service In S) (nonce : UInt32) : Rpcs.Config :=
  ⟨nonce,fun proc => (service.types proc).map fun ty => ⟨ty.1,ty.2,fun _ _ _ => true⟩⟩

def called {C : Type} (cfg : Rpcs.Config) (job : Rpcs.Job C) : Option (UInt32 × List Val) :=
  if job.h.proc = RpcConst.bind then none
  else (cfg.procs job.h.proc).bind fun handler => (Rpcs.arguments handler job).map fun args => (job.h.proc,args)

structure State (ι S : Type) where
  rpc : RpcSystem.State ι
  store : S

inductive Label (ι In : Type) where
  | rpc (label : RpcSystem.Label ι)
  | run (j : Nat) (input : In)

section Steps
variable {ι In S : Type} [DecidableEq ι]

def initial (service : Service In S) (nonces : ι → UInt32) (retrans : ι → Bool) : State ι S :=
  ⟨RpcSystem.initial nonces retrans,service.object.start⟩

-- A method is run at once, from its arguments to its result.
def step (service : Service In S) (nonce : UInt32) (s : State ι S) : Label ι In → Option (State ι S)
  | .rpc (.server (.run j ret r)) =>
    if (s.rpc.server.jobs[j]?).bind (called (service.config nonce)) = none then
      (RpcSystem.step (service.config nonce) s.rpc (.server (.run j ret r))).map fun rpc => {s with rpc:=rpc}
    else none
  | .rpc label => (RpcSystem.step (service.config nonce) s.rpc label).map fun rpc => {s with rpc:=rpc}
  | .run j input =>
    match (s.rpc.server.jobs[j]?).bind (called (service.config nonce)) with
    | none => none
    | some op =>
      let (res,next) := service.object.effect op input s.store
      (RpcSystem.step (service.config nonce) s.rpc (.server (.run j res.1 res.2))).map fun rpc => ⟨rpc,next⟩

-- Clients call what is registered by its types, and no copy of a request is
-- checked after a later request has acknowledged it.
def Proper (service : Service In S) (nonce : UInt32) (nonces : ι → UInt32) (s : State ι S) : Label ι In → Prop
  | .rpc label => PromptAll nonces s.rpc label ∧ ∀ i, RightResult.Agreeing (service.config nonce) i s.rpc label
  | .run _ _ => True

-- The calls by nonce and xid: what was asked for, and what has returned.
def asked (s : State ι S) (key : UInt32 × UInt32) (op : UInt32 × List Val) : Prop :=
  ∃ i, ∃ ca ∈ (s.rpc.clients i).callers, (ca.header.cltNonce,ca.xid) = key ∧ (ca.header.proc,ca.args) = op

def answered (s : State ι S) (key : UInt32 × UInt32) (op : UInt32 × List Val) (res : Int32 × Val) : Prop :=
  ∃ i, ∃ ca ∈ (s.rpc.clients i).callers, (ca.header.cltNonce,ca.xid) = key ∧ (ca.header.proc,ca.args) = op ∧
    ca.header.proc ≠ RpcConst.bind ∧ 0 ≤ res.1 ∧ ca.pc = .returned res.1 (some res.2)

-- Somewhere on the run one call had returned and the other was not yet made.
def Before (service : Service In S) (nonce : UInt32) (nonces : ι → UInt32) (retrans : ι → Bool)
    (labels : List (Label ι In)) (earlier later : UInt32 × UInt32) : Prop :=
  ∃ first second mid, labels = first ++ second ∧
    Machine.Runs (step service nonce) (Proper service nonce nonces) (initial service nonces retrans) first mid ∧
    (∃ op res, answered mid earlier op res) ∧ ∀ op, ¬ asked mid later op

abbrev Entry : Type := (UInt32 × UInt32) × (UInt32 × List Val) × (Int32 × Val)

def entryOf {C : Type} : Rpcs.Event C → Option Entry
  | .ran _ clt xid proc args ret r => if proc = RpcConst.bind then none else some ((clt,xid),(proc,args),(ret,r))
  | _ => none

def history (s : State ι S) : List Entry := s.rpc.server.trace.filterMap entryOf

inductive Step (service : Service In S) (nonce : UInt32) (s : State ι S) : Label ι In → State ι S → Prop where
  | rpc : (∀ j ret r, label = .server (.run j ret r) →
        (s.rpc.server.jobs[j]?).bind (called (service.config nonce)) = none) →
      RpcSystem.step (service.config nonce) s.rpc label = some rpc →
      Step service nonce s (.rpc label) {s with rpc:=rpc}
  | run : (s.rpc.server.jobs[j]?).bind (called (service.config nonce)) = some op →
      service.object.effect op input s.store = (res,next) →
      RpcSystem.step (service.config nonce) s.rpc (.server (.run j res.1 res.2)) = some rpc →
      Step service nonce s (.run j input) ⟨rpc,next⟩

variable {service : Service In S} {nonce : UInt32} {nonces : ι → UInt32} {retrans : ι → Bool} {s s' : State ι S}
  {label : Label ι In} {labels : List (Label ι In)}

theorem step_sound (taken : step service nonce s label = some s') : Step service nonce s label s' := by
  cases label with
  | run j input =>
    simp only [step] at taken
    cases calls : (s.rpc.server.jobs[j]?).bind (called (service.config nonce)) with
    | none => simp [calls] at taken
    | some op =>
      simp only [calls] at taken
      obtain ⟨rpc,moved,rfl⟩ := Option.map_eq_some_iff.mp taken
      exact .run calls rfl moved
  | rpc label =>
    have other : (∀ j ret r, label ≠ .server (.run j ret r)) →
        (RpcSystem.step (service.config nonce) s.rpc label).map (fun rpc => {s with rpc:=rpc}) = some s' →
        Step service nonce s (.rpc label) s' := by
      intro notRun mapped
      obtain ⟨rpc,moved,rfl⟩ := Option.map_eq_some_iff.mp mapped
      exact .rpc (fun j ret r same => absurd same (notRun j ret r)) moved
    cases label with
    | server inner =>
      cases inner with
      | run j ret r =>
        obtain ⟨none_,taken⟩ := Option.ite_none_right_eq_some.mp taken
        obtain ⟨rpc,moved,rfl⟩ := Option.map_eq_some_iff.mp taken
        refine .rpc (fun j' ret' r' same => ?_) moved
        cases same
        exact none_
      | _ => exact other (by simp) taken
    | _ => exact other (by simp) taken

def RpcProper (service : Service In S) (nonce : UInt32) (nonces : ι → UInt32) (rpc : RpcSystem.State ι)
    (label : RpcSystem.Label ι) : Prop :=
  PromptAll nonces rpc label ∧ ∀ i, RightResult.Agreeing (service.config nonce) i rpc label

theorem runs_rpc
    (path : Machine.Runs (step service nonce) (Proper service nonce nonces) (initial service nonces retrans) labels s) :
    ∃ inner, Machine.Runs (RpcSystem.step (service.config nonce)) (RpcProper service nonce nonces)
      (RpcSystem.initial nonces retrans) inner s.rpc := by
  induction path with
  | nil => exact ⟨[],.nil⟩
  | @snoc _ mid _ _ _ proper taken ih =>
    obtain ⟨inner,prior⟩ := ih
    cases step_sound taken with
    | rpc _ moved => exact ⟨_,.snoc prior proper moved⟩
    | @run j _ _ res _ rpc _ _ moved =>
      have runs : RpcProper service nonce nonces mid.rpc (.server (.run j res.1 res.2)) := ⟨fun _ => trivial,fun _ => trivial⟩
      exact ⟨_,.snoc prior runs moved⟩

theorem step_few (rule : Step service nonce s label s') (few : ∀ i, Rpcc.Few (s'.rpc.clients i)) (i : ι) :
    Rpcc.Few (s.rpc.clients i) := by
  cases rule with
  | rpc _ moved => exact AtMostOnce.few_before moved few i
  | run _ _ moved => exact AtMostOnce.few_before moved few i

section Server
variable {C : Type} [DecidableEq C] {cfg : Rpcs.Config} {server server' : Rpcs.State C} {inner : Rpcs.Label C}

def ranEntry (cfg : Rpcs.Config) (server : Rpcs.State C) : Rpcs.Label C → Option Entry
  | .run j ret r =>
    (server.jobs[j]?).bind fun job => (called cfg job).map fun op => ((job.h.cltNonce,job.h.xid),op,(ret,r))
  | _ => none

omit [DecidableEq C] in
theorem ran_called {job : Rpcs.Job C} {handler : Rpcs.Handler} (known : cfg.procs job.h.proc = some handler)
    (decoded : Rpcs.arguments handler job = some args) :
    (called cfg job).map (fun op => ((job.h.cltNonce,job.h.xid),op,(ret,r))) =
      entryOf (.ran j job.h.cltNonce job.h.xid job.h.proc args ret r : Rpcs.Event C) := by
  simp only [called,entryOf]
  split
  · rfl
  · rw [known,Option.bind_some,decoded]
    rfl

theorem step_entries (rule : Rpcs.Step cfg server inner server') :
    server'.trace.filterMap entryOf = server.trace.filterMap entryOf ++ (ranEntry cfg server inner).toList := by
  cases rule with
  | accept | collect | dies | refuse | enqueue | take | leave | stale | unguarded | guarded | window
  | add | addNothing | decref | chooseNull | chooseMissing => exact (List.append_nil _).symm
  | recordKept | recordFirst | recordOther | recordCrash | check | chooseKept | chooseLatest | send | sendOld =>
    exact List.filterMap_append
  | @undecoded j job handler ret r held pc known bad =>
    have nothing : ranEntry cfg server (.run j ret r) = none := by
      simp only [ranEntry,called,held,Option.bind_some,known,bad]
      split <;> rfl
    rw [nothing]
    exact (List.append_nil _).symm
  | ran held pc known decoded | runCrash held pc known decoded =>
    simp only [ranEntry,held,Option.bind_some]
    rw [ran_called known decoded]
    exact List.filterMap_append

end Server

theorem rpc_history {rpc : RpcSystem.State ι} {inner : RpcSystem.Label ι} {cfg : Rpcs.Config}
    (taken : RpcSystem.step cfg s.rpc inner = some rpc) :
    rpc.server.trace.filterMap entryOf = history s ++
      (match inner with
        | .server label => ranEntry cfg s.rpc.server label
        | _ => none).toList := by
  rcases RpcSystem.step_server (RpcSystem.step_sound taken) with ⟨same,notServer⟩ | ⟨label,moved,why⟩
  · cases inner with
    | server label => exact absurd rfl (notServer label)
    | _ =>
      rw [same]
      exact (List.append_nil _).symm
  · have entries := step_entries (Rpcs.step_sound moved)
    rcases why with ⟨rfl,_⟩ | ⟨_,_,_,rfl,_,_,rfl⟩
    · exact entries
    · exact entries

theorem step_legal (legal : Sequential.Legal service.object ((history s).map Prod.snd) s.store)
    (rule : Step service nonce s label s') :
    Sequential.Legal service.object ((history s').map Prod.snd) s'.store := by
  cases rule with
  | @rpc inner rpc notRun moved =>
    have same : history (⟨rpc,s.store⟩ : State ι S) = history s := by
      refine (rpc_history moved).trans ?_
      cases inner with
      | server label =>
        cases label with
        | run j ret r =>
          have none_ := notRun j ret r rfl
          simp only [ranEntry]
          cases held : s.rpc.server.jobs[j]? with
          | none => exact List.append_nil _
          | some job =>
            rw [held,Option.bind_some] at none_
            rw [Option.bind_some,none_]
            exact List.append_nil _
        | _ => exact List.append_nil _
      | _ => exact List.append_nil _
    rw [same]
    exact legal
  | @run j op input res next rpc calls effect moved =>
    obtain ⟨job,held,calls⟩ := Option.bind_eq_some_iff.mp calls
    have grown : history (⟨rpc,next⟩ : State ι S) = history s ++ [((job.h.cltNonce,job.h.xid),op,res)] := by
      refine (rpc_history moved).trans ?_
      simp only [ranEntry,held,Option.bind_some,calls,Option.map_some]
      rfl
    rw [grown,List.map_append]
    exact .snoc legal effect

theorem runs_legal
    (path : Machine.Runs (step service nonce) (Proper service nonce nonces) (initial service nonces retrans) labels s) :
    Sequential.Legal service.object ((history s).map Prod.snd) s.store := by
  induction path with
  | nil => exact .nil
  | snoc _ _ taken ih => exact step_legal ih (step_sound taken)

theorem entry_ran {C : Type} {trace : List (Rpcs.Event C)} (member : entry ∈ trace.filterMap entryOf) :
    ∃ j proc args ret r, .ran j entry.1.1 entry.1.2 proc args ret r ∈ trace ∧ entry.2 = ((proc,args),(ret,r)) ∧
      proc ≠ RpcConst.bind := by
  obtain ⟨event,inside,same⟩ := List.mem_filterMap.mp member
  cases event with
  | ran j clt xid proc args ret r =>
    simp only [entryOf] at same
    split at same
    · cases same
    · rename_i notBind
      cases same
      exact ⟨j,proc,args,ret,r,inside,rfl,notBind⟩
  | recorded | checked | chose | sent => cases same

omit [DecidableEq ι] in
theorem entries_nodup {C : Type} {trace : List (Rpcs.Event C)}
    (known : ∀ j clt xid proc args ret r, .ran j clt xid proc args ret r ∈ trace → ∃ i, clt = nonces i)
    (once : ∀ i, ExecutesOnce (nonces i) trace) : ((trace.filterMap entryOf).map Prod.fst).Nodup := by
  induction trace using List.reverseRecOn with
  | nil => exact List.nodup_nil
  | append_singleton trace event ih =>
    have before := ih (fun j clt xid proc args ret r member => known j clt xid proc args ret r
      (List.mem_append_left _ member)) fun i => (History.always_snoc.mp (once i)).1
    rw [List.filterMap_append,List.map_append]
    cases new : entryOf event with
    | none => simpa [new] using before
    | some entry =>
      obtain ⟨j,proc,args,ret,r,inside,_⟩ := entry_ran (List.mem_filterMap.mpr ⟨event,List.mem_singleton_self event,new⟩)
      have mine := List.mem_singleton.mp inside
      obtain ⟨i,clt⟩ := known j _ _ proc args ret r (by rw [mine]; simp)
      have last := (History.always_snoc.mp (once i)).2
      rw [← mine] at last
      have fresh := last clt
      simp only [List.filterMap_cons,new,List.filterMap_nil,List.map_cons,List.map_nil]
      refine List.nodup_append.mpr ⟨before,List.nodup_singleton _,?_⟩
      rintro key old key' same rfl
      cases List.mem_singleton.mp same
      obtain ⟨earlier,member,here⟩ := List.mem_map.mp old
      obtain ⟨j',proc',args',ret',r',ran,_⟩ := entry_ran member
      rw [here,clt] at ran
      exact fresh ⟨j',proc',args',ret',r',ran⟩

structure Grounds (cfg : Rpcs.Config) (nonces : ι → UInt32) (rpc : RpcSystem.State ι) : Prop where
  sound : RpcSystem.Sound cfg nonces rpc
  answered : ∀ i, RightResult.Answered cfg nonces i rpc
  once : ∀ i, ExecutesOnce (nonces i) rpc.server.trace
  small : ∀ i, (rpc.clients i).callers.length < 2^32

theorem runs_grounds (nonzero : ∀ i, nonces i ≠ 0) (unique : ∀ i k, nonces k = nonces i → k = i)
    (path : Machine.Runs (step service nonce) (Proper service nonce nonces) (initial service nonces retrans) labels s)
    (few : ∀ i, Rpcc.Few (s.rpc.clients i)) : Grounds (service.config nonce) nonces s.rpc := by
  obtain ⟨_,inner⟩ := runs_rpc path
  constructor
  · exact RpcSystem.runs_sound inner
  · intro i
    apply RightResult.runs_answered (unique i)
    exact inner.weaken fun _ _ proper => proper.2 i
  · exact AtMostOnce.runs_once nonzero unique (fun _ _ proper => proper.1) inner few
  · intro i
    have bound := few i
    unfold Rpcc.Few at bound
    omega

section Calls
variable {cfg : Rpcs.Config} {rpc : RpcSystem.State ι}

omit [DecidableEq ι] in
theorem ran_nonce (grounds : Grounds cfg nonces rpc) (ran : .ran j clt xid proc args ret r ∈ rpc.server.trace) :
    ∃ i, clt = nonces i := by
  obtain ⟨job,_,held,nonce,_⟩ := grounds.sound.truthful.honest _ ran
  obtain ⟨_,_,_,_,own,_⟩ := RpcSystem.job_reads grounds.sound.requested grounds.sound.linked held
  exact ⟨_,nonce.symm.trans own⟩

omit [DecidableEq ι] in
theorem ran_asked (grounds : Grounds cfg nonces rpc) (unique : ∀ i k, nonces k = nonces i → k = i)
    (ran : .ran j clt xid proc args ret r ∈ rpc.server.trace) :
    ∃ i, ∃ ca ∈ (rpc.clients i).callers, (ca.header.cltNonce,ca.xid) = (clt,xid) ∧
      (ca.header.proc,ca.args) = (proc,args) := by
  obtain ⟨job,_,held,nonce,asked,_⟩ := grounds.sound.truthful.honest _ ran
  obtain ⟨k,ca,place,header,own,_⟩ := RpcSystem.job_reads grounds.sound.requested grounds.sound.linked held
  have linked := grounds.sound.linked job.arrived.1
  have xid_ : ca.xid = xid := by rw [← (linked.numbered k ca place).2,← header,asked]
  have clt_ : ca.header.cltNonce = clt := by rw [← header,nonce]
  rw [← nonce,own,← xid_] at ran
  obtain ⟨proc_,args_,_⟩ := RightResult.ran_arguments grounds.sound (grounds.answered _) (unique _) (grounds.small _)
    place ran
  exact ⟨_,ca,List.mem_of_getElem? place,by rw [clt_,xid_],by rw [proc_,args_]⟩

end Calls

theorem runs_few {ok : State ι S → Label ι In → Prop} {mid : State ι S}
    (onward : Machine.Runs (step service nonce) ok mid labels s) (few : ∀ i, Rpcc.Few (s.rpc.clients i)) :
    ∀ i, Rpcc.Few (mid.rpc.clients i) := by
  induction onward with
  | nil => exact few
  | snoc _ _ taken ih => exact ih (step_few (step_sound taken) few)

theorem runs_history {ok : State ι S → Label ι In → Prop} {mid : State ι S}
    (onward : Machine.Runs (step service nonce) ok mid labels s) : history mid <+: history s := by
  induction onward with
  | nil => exact List.prefix_refl _
  | snoc _ _ taken ih =>
    cases step_sound taken with
    | rpc _ moved =>
      refine ih.trans ⟨_,(rpc_history moved).symm⟩
    | run _ _ moved =>
      refine ih.trans ⟨_,(rpc_history moved).symm⟩

omit [DecidableEq ι] in
theorem answered_entry (grounds : Grounds cfg nonces s.rpc) (unique : ∀ i k, nonces k = nonces i → k = i)
    (returned : answered s key op res) : (key,op,res) ∈ history s := by
  obtain ⟨i,ca,member,rfl,rfl,notBind,good,pc⟩ := returned
  obtain ⟨k,held⟩ := List.mem_iff_getElem?.mp member
  obtain ⟨j,v,_,same,_,_,ran⟩ := RightResult.returned_ran grounds.sound (grounds.answered i) (unique i) (grounds.small i)
    held pc good
  cases Option.some.inj same
  have sender := ((grounds.sound.linked i).packed k ca held).sender
  refine List.mem_filterMap.mpr ⟨_,ran,?_⟩
  simp only [entryOf]
  rw [if_neg notBind,sender]

omit [DecidableEq ι] in
theorem entry_asked (grounds : Grounds cfg nonces s.rpc) (unique : ∀ i k, nonces k = nonces i → k = i)
    (member : (key,op,res) ∈ history s) : asked s key op := by
  obtain ⟨j,proc,args,ret,r,ran,same,_⟩ := entry_ran member
  cases same
  exact ran_asked grounds unique ran

theorem calls_linearizable (nonzero : ∀ i, nonces i ≠ 0) (unique : ∀ i k, nonces k = nonces i → k = i)
    (path : Machine.Runs (step service nonce) (Proper service nonce nonces) (initial service nonces retrans) labels s)
    (few : ∀ i, Rpcc.Few (s.rpc.clients i)) :
    Sequential.Linearizes service.object (asked s) (answered s) (Before service nonce nonces retrans labels)
      (history s) s.store := by
  have grounds := runs_grounds nonzero unique path few
  constructor
  · exact runs_legal path
  · apply entries_nodup _ grounds.once
    intro j clt xid proc args ret r ran
    exact ran_nonce grounds ran
  · intro key op res member
    exact entry_asked grounds unique member
  · intro key op res returned
    exact answered_entry grounds unique returned
  · rintro earlier later op res front rest ⟨first,second,mid,rfl,prior,⟨op',res',returned⟩,unasked⟩ equal
    have onward := path.rest prior
    have grounds' := runs_grounds nonzero unique prior (runs_few onward few)
    have there := answered_entry grounds' unique returned
    obtain ⟨recent,grown⟩ := runs_history onward
    rw [← grown] at equal
    refine Sequential.ordered_of_parts (List.mem_map.mpr ⟨_,there,rfl⟩) (fun member => ?_) equal
    obtain ⟨⟨key,op,res⟩,inside,rfl⟩ := List.mem_map.mp member
    exact unasked op (entry_asked grounds' unique inside)

instance (cfg : Rpcs.Config) (proc : UInt32) (args : List Val) (ty : Ty) :
    Decidable (RightResult.Agrees cfg proc args ty) :=
  inferInstanceAs (Decidable (∀ handler ∈ cfg.procs proc, args.map Val.ty = handler.args ∧ ty = handler.res))

instance (cfg : Rpcs.Config) (i : ι) (s : RpcSystem.State ι) :
    (label : RpcSystem.Label ι) → Decidable (RightResult.Agreeing cfg i s label)
  | .client k (.call proc args ty _) => inferInstanceAs (Decidable (k = i → RightResult.Agrees cfg proc args ty))
  | .client _ (.getRefconn _ _) | .client _ (.send _) | .client _ (.deadline _) | .client _ (.await _)
  | .client _ (.wake _) | .client _ (.timeout _) | .client _ (.again _) | .client _ (.finish _) | .client _ (.ret _)
  | .client _ (.bound _) | .client _ (.gotPdu _) | .client _ (.connDies _) | .server _ | .arrive _ | .deliver _
  | .loseRequest _ | .loseReply _ | .copyRequest _ | .copyReply _ => inferInstanceAs (Decidable True)

instance [Fintype ι] (service : Service In S) (nonce : UInt32) (nonces : ι → UInt32) (s : State ι S) :
    (label : Label ι In) → Decidable (Proper service nonce nonces s label)
  | .rpc label =>
    inferInstanceAs (Decidable (PromptAll nonces s.rpc label ∧
      ∀ i, RightResult.Agreeing (service.config nonce) i s.rpc label))
  | .run _ _ => inferInstanceAs (Decidable True)

end Steps

-- extent_smain, without getattr, whose result is a record. The input is the r of
-- put and remove, which nobody sets.
def extentService : Service Int32 ExtentServer where
  types proc :=
    if proc = 0x6001 then some ([.ulonglong,.string],.int)
    else if proc = 0x6002 then some ([.ulonglong],.string)
    else if proc = 0x6004 then some ([.ulonglong],.int)
    else none
  object :=
    {start:=ExtentServer.initial
     effect:=fun op r s =>
      match op.1,op.2 with
      | 0x6001,[.ulonglong id,.string buf] => ((0,.int r),s.put id buf)
      | 0x6002,[.ulonglong id] =>
        match s.get id with
        | none => ((2,.string []),s)
        | some buf => ((0,.string buf),s)
      | _,_ => ((3,.int r),s)}

def rpcCall (i : Bool) (k j : Nat) (connects : Bool) (proc : UInt32) (args : List Val) (ty : Ty)
    (run : Label Bool Int32) : List (Label Bool Int32) :=
  [.rpc (.client i (.call proc args ty fun _ => 0)),.rpc (.client i (.getRefconn k connects)),
   .rpc (.client i (.send k)),.rpc (.client i (.await k))] ++
    (if connects then [.rpc (.server (.accept (i,0)))] else []) ++
    [.rpc (.arrive 0),.rpc (.server (.take fun _ => 0)),.rpc (.server (.start j)),.rpc (.server (.window j)),
     .rpc (.server (.record j)),.rpc (.server (.check j)),run,.rpc (.server (.add j)),.rpc (.server (.choose j)),
     .rpc (.server (.send j)),.rpc (.server (.decref j)),.rpc (.deliver 0),.rpc (.client i (.wake k)),
     .rpc (.client i (.finish k)),.rpc (.client i (.ret k))]

def binds (i : Bool) (j : Nat) : List (Label Bool Int32) :=
  rpcCall i 0 j true 1 [.int 0] .int (.rpc (.server (.run j 0 (.int 9)))) ++ [.rpc (.client i (.bound 0))]

def putThenGet : List (Label Bool Int32) :=
  binds true 0 ++ rpcCall true 1 1 false 0x6001 [.ulonglong 5,.string [104,105]] .int (.run 1 0) ++
    binds false 2 ++ rpcCall false 1 3 false 0x6002 [.ulonglong 5] .string (.run 3 0)

def twoNonces : Bool → UInt32
  | true => 7
  | false => 8

theorem put_then_get :
    ∃ s, Machine.Runs (step extentService 9) (Proper extentService 9 twoNonces)
        (initial extentService twoNonces fun _ => true) putThenGet s ∧
      ((8,2),(0x6002,[.ulonglong 5]),(0,.string [104,105])) ∈ history s ∧
      Sequential.Legal extentService.object ((history s).map Prod.snd) s.store := by
  have ran : (Machine.exec (Machine.guarded (step extentService 9) (Proper extentService 9 twoNonces))
      (initial extentService twoNonces fun _ => true) putThenGet).map (fun s =>
        ([(s.rpc.clients true).callers.length,(s.rpc.clients false).callers.length],
          (s.rpc.clients false).callers[1]?.map fun ca => (ca.pc,ca.args,[ca.header.cltNonce,ca.xid,ca.header.proc]))) =
      some ([2,2],some (.returned 0 (some (.string [104,105])),[.ulonglong 5],[8,2,0x6002])) := by decide +kernel
  obtain ⟨s,path,view⟩ := Machine.guarded_observed ran
  obtain ⟨counts,last⟩ := Prod.mk.inj view
  simp only [List.cons.injEq,and_true] at counts
  obtain ⟨first,second⟩ := counts
  have few : ∀ i, Rpcc.Few (s.rpc.clients i) := by
    intro i
    cases i with
    | true => rw [Rpcc.Few,first]; decide
    | false => rw [Rpcc.Few,second]; decide
  have linear := calls_linearizable (by decide) (by decide) path few
  obtain ⟨ca,held,seen⟩ := Option.map_eq_some_iff.mp last
  simp only [Prod.mk.injEq,List.cons.injEq,and_true] at seen
  obtain ⟨pc,args,clt,xid,proc⟩ := seen
  refine ⟨s,path,linear.answered _ _ _ ⟨false,ca,List.mem_of_getElem? held,?_⟩,linear.legal⟩
  exact ⟨by rw [clt,xid],by rw [proc,args],by rw [proc]; decide,by decide,pc⟩

end YfsLab.Services
