import YfsLab.RpcSystem

namespace YfsLab.RightResult
open RpcSystem
open Rpcc (Caller)
open CallTable (opened receive Kept)
open ServerReplies (Genuine)

def Agrees (cfg : Rpcs.Config) (proc : UInt32) (args : List Val) (ty : Ty) : Prop :=
  ∀ handler, cfg.procs proc = some handler → args.map Val.ty = handler.args ∧ ty = handler.res

variable {ι : Type}

def Agreeing (cfg : Rpcs.Config) (i : ι) (_ : State ι) : Label ι → Prop
  | .client k (.call proc args ty _) => k = i → Agrees cfg proc args ty
  | _ => True

def Holds (trace : List (Rpcs.Event (Conn ι))) (clt : UInt32) (ca : Caller) : Prop :=
  ∃ b, Genuine trace clt ca.xid b ∧ (frame b).length ≤ maxPdu ∧
    ca.un = (opened (frame b)).2.takeIn ∧ ca.intret = (opened (frame b)).1.ret

structure Answered (cfg : Rpcs.Config) (nonces : ι → UInt32) (i : ι) (s : State ι) : Prop where
  typed : ∀ (k : Nat) (ca : Caller), (s.clients i).callers[k]? = some ca →
    Agrees cfg ca.header.proc ca.args ca.ty
  holds : ∀ (k : Nat) (ca : Caller), (s.clients i).callers[k]? = some ca → ca.done = true →
    Holds s.server.trace (nonces i) ca

theorem initial_answered (cfg : Rpcs.Config) (nonces : ι → UInt32) (retrans : ι → Bool) (i : ι) :
    Answered cfg nonces i (initial nonces retrans) :=
  ⟨by simp [initial,Rpcc.initial],by simp [initial,Rpcc.initial]⟩

theorem Holds.later {trace later : List (Rpcs.Event (Conn ι))} {ca ca' : Caller} (holds : Holds trace clt ca)
    (kept : ∀ event ∈ trace, event ∈ later) (xid : ca'.xid = ca.xid) (un : ca'.un = ca.un)
    (intret : ca'.intret = ca.intret) : Holds later clt ca' := by
  obtain ⟨b,genuine,fits,reply,ret⟩ := holds
  exact ⟨b,xid ▸ genuine.later kept,fits,un.trans reply,intret.trans ret⟩

variable [DecidableEq ι] {cfg : Rpcs.Config} {nonces : ι → UInt32} {i : ι} {s s' t : State ι} {label : Label ι}
variable {k : Nat} {ca : Caller}

theorem step_typed (answered : Answered cfg nonces i s) (agreeing : Agreeing cfg i s label)
    (step : Step cfg s label s') (k : Nat) (ca' : Caller) (found : (s'.clients i).callers[k]? = some ca') :
    Agrees cfg ca'.header.proc ca'.args ca'.ty := by
  rcases step_client step i with same | ⟨inner,moved,why⟩
  · exact answered.typed k ca' (same ▸ found)
  · rcases CallTable.step_origin moved found with ⟨ca,old,kept⟩ | ⟨proc,args,ty,junk,rfl,_,rfl⟩
    · rw [kept.header,kept.args,kept.ty]
      exact answered.typed k ca old
    · rcases why with ⟨rfl,_⟩ | ⟨_,_,_,_,_,_,other⟩
      · exact agreeing rfl
      · cases other

theorem step_holds (sound : Sound cfg nonces s) (routed : Routed nonces i s) (answered : Answered cfg nonces i s)
    (step : Step cfg s label s') (k : Nat) (ca' : Caller) (found : (s'.clients i).callers[k]? = some ca')
    (done : ca'.done = true) : Holds s'.server.trace (nonces i) ca' := by
  have kept : ∀ event ∈ s.server.trace, event ∈ s'.server.trace := fun _ => step_trace step
  rcases step_client step i with same | ⟨inner,moved,why⟩
  · exact (answered.holds k ca' (same ▸ found) done).later kept rfl rfl rfl
  · rcases CallTable.step_origin moved found with ⟨ca,old,static⟩ | ⟨proc,args,ty,junk,_,_,rfl⟩
    · obtain ⟨other,now,how⟩ := CallTable.step_consumes (sound.linked i) moved old
      cases Option.some.inj (found.symm.trans now)
      rcases how with ⟨un,intret,same⟩ | ⟨pdu,rfl,_,xid,_,rfl⟩
      · exact (answered.holds k ca old (same ▸ done)).later kept static.xid un intret
      · rcases why with ⟨rfl,notGot⟩ | ⟨n,c,bytes,rfl,flying,fits,own⟩
        · cases notGot
        · cases own
          obtain ⟨j,cb,b,_,genuine,rfl⟩ := routed.replies (i,c) pdu (List.mem_of_getElem? flying) rfl
          have answers : cb.xid = ca.xid := by
            obtain ⟨size,junk,body,ret,four,_,layout,_⟩ := genuine
            rw [← xid,(opened_frame four layout).1]
          exact ⟨b,(answers ▸ genuine).later kept,fits,rfl,rfl⟩
    · cases done

theorem step_answered (sound : Sound cfg nonces s) (routed : Routed nonces i s)
    (answered : Answered cfg nonces i s) (agreeing : Agreeing cfg i s label) (step : Step cfg s label s') :
    Answered cfg nonces i s' :=
  ⟨step_typed answered agreeing step,step_holds sound routed answered step⟩

theorem runs_answered (unique : ∀ k, nonces k = nonces i → k = i)
    (path : Machine.Runs (step cfg) (Agreeing cfg i) (initial nonces retrans) labels s) :
    Answered cfg nonces i s :=
  path.invariant_reached (initial_answered cfg nonces retrans i)
    (fun _ _ _ _ prior answered agreeing taken =>
      step_answered (runs_sound prior) (runs_routed unique prior) answered agreeing (step_sound taken))

omit [DecidableEq ι] in
theorem ran_arguments (sound : Sound cfg nonces s) (answered : Answered cfg nonces i s)
    (unique : ∀ k, nonces k = nonces i → k = i) (few : (s.clients i).callers.length < 2^32)
    (found : (s.clients i).callers[k]? = some ca)
    (ran : .ran j (nonces i) ca.xid proc args ret r ∈ s.server.trace) :
    proc = ca.header.proc ∧ args = ca.args ∧
      ∃ handler, cfg.procs proc = some handler ∧ handler.meth args ret r = true ∧ r.ty = handler.res := by
  obtain ⟨job,handler,held,nonce,xid,rfl,known,decoded,allowed,typed⟩ := sound.truthful.honest _ ran
  have arrived := (sound.owner unique held).mp nonce
  obtain ⟨n,cb,place,header,_,left,ok,inside,small⟩ := job_reads sound.requested sound.linked held
  rw [arrived] at place
  -- Fewer than 2^32 calls: the caller with this xid is the one that returned.
  have same : n = k := (sound.linked i).distinct few place found
    (by rw [← ((sound.linked i).numbered n cb place).2,← header]; exact xid)
  subst same
  cases Option.some.inj (place.symm.trans found)
  have agreed := answered.typed n ca found handler (by rw [← header]; exact known)
  refine ⟨by rw [header],?_,handler,known,allowed,typed⟩
  have read := (Unmarshall.gets_encodes ca.args (left.trans (List.append_nil _).symm) ok inside small).1
  rw [agreed.1] at read
  simp only [Rpcs.arguments,read] at decoded
  split at decoded
  · exact (Option.some.inj decoded).symm
  · cases decoded

theorem holds_body {ca : Caller} {b size junk body : List UInt8} (four : size.length = 4)
    (twelve : junk.length = 12) (layout : b = size ++ (ReplyHeader.mk xid ret).encode ++ (junk ++ body))
    (fits : (frame b).length ≤ maxPdu) (un : ca.un = (opened (frame b)).2.takeIn) :
    ca.un.rest = body ∧ ca.un.ok = true ∧ ca.un.ind ≤ ca.un.buf.length ∧ ca.un.buf.length < 2^32 := by
  obtain ⟨reply,framed⟩ := opened_frame four layout
  rw [reply] at un
  have size24 : (frame b).length = 24 + body.length := by
    rw [framed]
    simp only [List.length_append,Words.be32_length,ReplyHeader.encode_length,twelve]
    omega
  have un : ca.un = ⟨frame b,rpcHeaderSz,true⟩ := by
    rw [un]
    simp [Unmarshall.takeIn,size24,rpcHeaderSz]
  rw [un]
  refine ⟨?_,rfl,?_,?_⟩
  · show (frame b).drop rpcHeaderSz = body
    have before : (Words.be32 (UInt32.ofNat b.length) ++ (ReplyHeader.mk xid ret).encode ++ junk).length =
        rpcHeaderSz := by
      simp only [List.length_append,Words.be32_length,ReplyHeader.encode_length,twelve,rpcHeaderSz]
    rw [framed,← List.append_assoc,List.drop_left' before]
  · show rpcHeaderSz ≤ (frame b).length
    simp only [rpcHeaderSz]
    omega
  · show (frame b).length < 2^32
    simp only [maxPdu] at fits
    omega

theorem holds_result {ca : Caller} {b size junk body : List UInt8} {r : Val} (four : size.length = 4)
    (twelve : junk.length = 12) (layout : b = size ++ (ReplyHeader.mk xid ret).encode ++ (junk ++ body))
    (encoded : body = r.encode) (fits : (frame b).length ≤ maxPdu) (done : ca.done = true)
    (un : ca.un = (opened (frame b)).2.takeIn) (intret : ca.intret = (opened (frame b)).1.ret)
    (ty : r.ty = ca.ty) (good : 0 ≤ ret) : Rpcc.result ca = (ret,some r) := by
  obtain ⟨left,ok,inside,small⟩ := holds_body four twelve layout fits un
  rw [encoded] at left
  rw [(opened_frame four layout).1] at intret
  have read := (Unmarshall.get_encode r (left.trans (List.append_nil _).symm) ok inside small).1
  have finished := Unmarshall.okdone_advance ok inside
  rw [left] at finished
  have positive : ¬ ret < 0 := Int32.not_lt.mpr good
  simp only [Rpcc.result,done,intret,if_true,← ty,read,finished]
  rw [if_neg positive]

omit [DecidableEq ι] in
theorem returned_ran (sound : Sound cfg nonces s) (answered : Answered cfg nonces i s)
    (unique : ∀ k, nonces k = nonces i → k = i) (few : (s.clients i).callers.length < 2^32)
    (found : (s.clients i).callers[k]? = some ca) (pc : ca.pc = .returned ret r) (good : 0 ≤ ret) :
    ∃ j v handler, r = some v ∧ cfg.procs ca.header.proc = some handler ∧
      handler.meth ca.args ret v = true ∧
      .ran j (nonces i) ca.xid ca.header.proc ca.args ret v ∈ s.server.trace := by
  have result := (sound.linked i).returned k ca ret r found pc
  -- A call that gave up returns timeout_failure.
  have done : ca.done = true := by
    cases finished : ca.done with
    | true => rfl
    | false =>
      have late : Rpcc.result ca = (RpcConst.timeoutFailure,none) := by
        simp [Rpcc.result,finished,RpcConst.timeoutFailure]
      rw [late] at result
      rw [(Prod.mk.inj result).1] at good
      exact absurd good (by decide)
  obtain ⟨b,⟨size,junk,body,ret',four,twelve,layout,source⟩,fits,un,intret⟩ := answered.holds k ca found done
  have header := (opened_frame four layout).1
  rcases Int32.lt_or_le ret' 0 with negative | positive
  · have failed : Rpcc.result ca = (ret',none) := by
      rw [header] at intret
      simp [Rpcc.result,done,intret,negative]
    rw [failed] at result
    rw [(Prod.mk.inj result).1] at good
    exact absurd negative (Int32.not_lt.mpr good)
  · obtain ⟨j,proc,args,v,ran,encoded⟩ := source.resolve_left (Int32.not_lt.mpr positive)
    obtain ⟨rfl,rfl,handler,known,allowed,typed⟩ := ran_arguments sound answered unique few found ran
    have agreed := answered.typed k ca found handler known
    rw [holds_result four twelve layout encoded fits done un intret (typed.trans agreed.2.symm) positive] at result
    obtain ⟨rfl,rfl⟩ := Prod.mk.inj result
    exact ⟨j,v,handler,rfl,known,allowed,ran⟩

theorem runs_done (sound : Sound cfg nonces s) (found : (s.clients i).callers[k]? = some ca)
    (done : ca.done = true) (later : Machine.Runs (step cfg) Machine.free s labels t) :
    ∃ ca', (t.clients i).callers[k]? = some ca' ∧ ca'.un = ca.un ∧ ca'.intret = ca.intret ∧ ca'.done = true := by
  induction later with
  | nil => exact ⟨ca,found,rfl,rfl,done⟩
  | snoc prior _ taken ih =>
    obtain ⟨ca',held,un,intret,finished⟩ := ih
    rcases step_client (step_sound taken) i with same | ⟨inner,moved,_⟩
    · exact ⟨ca',same ▸ held,un,intret,finished⟩
    · have linked := (sound.later prior).linked i
      obtain ⟨ca'',now,how⟩ := CallTable.step_consumes linked moved held
      rcases how with ⟨un',intret',done'⟩ | ⟨_,_,_,_,open_,_⟩
      · exact ⟨ca'',now,un'.trans un,intret'.trans intret,done'.trans finished⟩
      · rw [finished] at open_; cases open_

theorem calls_return_their_runs (unique : ∀ k, nonces k = nonces i → k = i)
    (path : Machine.Runs (step cfg) (Agreeing cfg i) (initial nonces retrans) labels s)
    (few : (s.clients i).callers.length < 2^32) :
    (∀ (k : Nat) (ca : Caller) ret r, (s.clients i).callers[k]? = some ca → ca.pc = .returned ret r → 0 ≤ ret →
      ∃ j v handler, r = some v ∧ cfg.procs ca.header.proc = some handler ∧
        handler.meth ca.args ret v = true ∧
        .ran j (nonces i) ca.xid ca.header.proc ca.args ret v ∈ s.server.trace) ∧
    (∀ label s' (k : Nat) (ca : Caller), step cfg s label = some s' → (s.clients i).callers[k]? = some ca →
      ∃ ca', (s'.clients i).callers[k]? = some ca' ∧
        ((ca'.un = ca.un ∧ ca'.intret = ca.intret ∧ ca'.done = ca.done) ∨
          ∃ n c pdu, label = .deliver n ∧ s.replies[n]? = some ((i,c),pdu) ∧
            (Unmarshall.ofPdu pdu).unpackReplyHeader.1.xid = ca.xid ∧ ca.done = false)) ∧
    (∀ more t (k : Nat) (ca : Caller), Machine.Runs (step cfg) Machine.free s more t →
      (s.clients i).callers[k]? = some ca → ca.done = true →
      ∃ ca', (t.clients i).callers[k]? = some ca' ∧ ca'.un = ca.un ∧ ca'.intret = ca.intret ∧
        ca'.done = true) := by
  have sound := runs_sound path
  refine ⟨fun k ca ret r found pc good => returned_ran sound (runs_answered unique path) unique few found pc good,?_,
    fun more t k ca later found done => runs_done sound found done later⟩
  intro label s' k ca taken found
  have rule := step_sound taken
  rcases step_client rule i with same | ⟨inner,moved,why⟩
  · exact ⟨ca,same ▸ found,.inl ⟨rfl,rfl,rfl⟩⟩
  · obtain ⟨ca',now,how⟩ := CallTable.step_consumes (sound.linked i) moved found
    refine ⟨ca',now,how.imp_right ?_⟩
    rintro ⟨pdu,rfl,_,xid,open_,_⟩
    rcases why with ⟨rfl,notGot⟩ | ⟨n,c,bytes,rfl,flying,_,own⟩
    · cases notGot
    · cases own
      exact ⟨n,c,pdu,rfl,flying,xid,open_⟩

-- One client binds: its request goes out on a first connection, is executed
-- and the reply comes back.
def binding : List (Label Unit) :=
  [.client () (.call 1 [.int 0] .int (fun _ => 0)),.client () (.getRefconn 0 true),.client () (.send 0),
   .client () (.await 0),.server (.accept ((),0)),.arrive 0,.server (.take (fun _ => 0)),.server (.start 0),
   .server (.window 0),.server (.record 0),.server (.check 0),.server (.run 0 0 (.int 9)),.server (.add 0),
   .server (.choose 0),.server (.send 0),.deliver 0,.client () (.wake 0),.client () (.finish 0),.client () (.ret 0)]

theorem bind_returns_its_run :
    ∃ s, Machine.Runs (step ⟨9,fun _ => none⟩) Machine.free (initial (fun _ => 7) (fun _ => true)) binding s ∧
      ∃ ca, (s.clients ()).callers[0]? = some ca ∧ ca.pc = .returned 0 (some (.int 9)) ∧
        ∃ j v, .ran j 7 ca.xid ca.header.proc ca.args 0 v ∈ s.server.trace := by
  have seen : (Machine.exec (step ⟨9,fun _ => none⟩) (initial (fun _ => 7) (fun _ => true)) binding).map
      (fun s => ((s.clients ()).callers[0]?.map Caller.pc,(s.clients ()).callers.length)) =
      some (some (.returned 0 (some (.int 9))),1) := by decide +kernel
  have agreeing : ∀ label ∈ binding, ∀ state, Agreeing ⟨9,fun _ => none⟩ () state label := by
    simp [binding,Agreeing,Agrees,Rpcs.Config.procs,RpcConst.bind,Rpcs.rpcbind,Val.ty]
  obtain ⟨s,path,view⟩ := Machine.exec_observed seen agreeing
  obtain ⟨pc,count⟩ := Prod.mk.inj view
  obtain ⟨ca,found,pc⟩ := Option.map_eq_some_iff.mp pc
  have few : (s.clients ()).callers.length < 2^32 := by rw [count]; decide
  obtain ⟨j,v,_,_,_,_,ran⟩ := (calls_return_their_runs (fun _ _ => rfl) path few).1 0 ca 0 _ found pc (by decide)
  exact ⟨s,path.unrestricted,ca,found,pc,j,v,ran⟩

end YfsLab.RightResult
