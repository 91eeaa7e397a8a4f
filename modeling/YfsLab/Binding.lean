import YfsLab.CallTable

namespace YfsLab.Binding
open Rpcc
open CallTable (Linked Kept receive opened)

structure BindReply (ca : Caller) (v : UInt32) : Prop where
  bind : ca.header.proc = RpcConst.bind
  good : ∃ r, result ca = (0,some (.int r)) ∧ r.toUInt32 = v

def Bound (s : State) (v : UInt32) : Prop :=
  ∃ (b : Nat) (cb : Caller), s.callers[b]? = some cb ∧ cb.pc = .bound ∧ BindReply cb v

structure Invariant (s : State) : Prop where
  unbound : s.bindDone = false → ∀ (k : Nat) (ca : Caller), s.callers[k]? = some ca → ca.header.proc = RpcConst.bind
  bound : s.bindDone = true → Bound s s.srvNonce
  -- Once a call that is no bind has been made no bind is.
  binds : ∀ (j k : Nat) (ca cb : Caller), s.callers[k]? = some ca → ca.header.proc = RpcConst.bind → j ≤ k →
    s.callers[j]? = some cb → cb.header.proc = RpcConst.bind
  others : ∀ (k : Nat) (ca : Caller), s.callers[k]? = some ca → ca.header.proc ≠ RpcConst.bind →
    Bound s ca.header.srvNonce
  -- Of the calls with one xid calls_ holds the last.
  latest : ∀ x k, s.calls x = some k → ∀ (j : Nat) (ca : Caller), s.callers[j]? = some ca → ca.xid = x → j ≤ k

theorem initial_invariant (cltNonce : UInt32) (retrans : Bool) : Invariant (initial cltNonce retrans) :=
  ⟨by simp [initial],by simp [initial],by simp [initial],by simp [initial],by simp [initial]⟩

variable {s s' : State} {label : Label} {k : Nat} {ca ca' : Caller} {clt : UInt32}

theorem result_pc (ca : Caller) (pc : Pc) : result {ca with pc:=pc} = result ca := by simp only [result]

theorem callerStep_sets (step : CallerStep s k ca label s') :
    ca.pc ≠ .bound ∧ ∃ ca', s'.callers = s.callers.set k ca' := by
  cases step with
  | getRefconn pc | finish pc => exact ⟨by simp [pc],_,rfl⟩
  | moves running => exact ⟨running,_,rfl⟩
  | bound _ finished =>
    obtain ⟨r,pc,_⟩ := bindResult_some finished
    exact ⟨by simp [pc],_,rfl⟩

theorem bound_stays (linked : Linked clt s) (taken : step s label = some s') (held : s.callers[k]? = some ca)
    (pc : ca.pc = .bound) : s'.callers[k]? = some ca := by
  cases own : label.caller with
  | some j =>
    obtain ⟨cb,found,taken⟩ := step_caller own taken
    obtain ⟨running,cb',same⟩ := callerStep_sets (stepCaller_sound taken)
    have other : k ≠ j := by
      rintro rfl
      cases Option.some.inj (found.symm.trans held)
      exact running pc
    rw [same,Machine.entry_other other,held]
  | none =>
    cases label with
    | call proc args ty junk =>
      cases Option.some.inj taken
      unfold call
      split
      · exact held
      · exact Machine.entry_kept held
    | connDies => cases Option.some.inj taken; exact held
    | gotPdu pdu =>
      cases Option.some.inj taken
      by_cases good : (Unmarshall.ofPdu pdu).unpackReplyHeader.2.ok = true
      · obtain ⟨_,_,_,same | ⟨j,cb,pending,found,_,same⟩⟩ := CallTable.gotPdu_table (s:=s) good
        · rw [same,held]
        · have other : k ≠ j := by
            rintro rfl
            obtain ⟨cc,again,_,here⟩ := linked.pending _ _ pending
            cases Option.some.inj (held.symm.trans again)
            simp [Caller.gone,pc] at here
          rw [same,Machine.entry_other other,held]
      · simp only [gotPdu,good]
        exact held
    | _ => cases own

theorem Bound.later (linked : Linked clt s) (taken : step s label = some s') (bound : Bound s v) : Bound s' v := by
  obtain ⟨b,cb,held,pc,reply⟩ := bound
  exact ⟨b,cb,bound_stays linked taken held pc,pc,reply⟩

theorem step_binding (linked : Linked clt s) (taken : step s label = some s') :
    (s'.bindDone = s.bindDone ∧ s'.srvNonce = s.srvNonce) ∨ (s'.bindDone = true ∧ Bound s' s'.srvNonce) := by
  cases own : label.caller with
  | some k =>
    obtain ⟨ca,held,taken⟩ := step_caller own taken
    cases stepCaller_sound taken with
    | getRefconn | moves | finish => exact .inl ⟨rfl,rfl⟩
    | @bound v _ bind finished =>
      obtain ⟨r,pc,same⟩ := bindResult_some finished
      refine .inr ⟨rfl,k,{ca with pc:=.bound},Machine.entry_self held,rfl,bind,r,?_,same⟩
      rw [result_pc]
      exact (linked.returned k ca 0 _ held pc).symm
  | none =>
    cases label with
    | call proc args ty junk =>
      cases Option.some.inj taken
      unfold call
      split <;> exact .inl ⟨rfl,rfl⟩
    | connDies => cases Option.some.inj taken; exact .inl ⟨rfl,rfl⟩
    | gotPdu pdu =>
      cases Option.some.inj taken
      by_cases good : (Unmarshall.ofPdu pdu).unpackReplyHeader.2.ok = true
      · rcases gotPdu_cases (s:=s) good with ⟨same,_⟩ | ⟨j,cb,_,_,_,same⟩ <;> rw [same] <;> exact .inl ⟨rfl,rfl⟩
      · simp only [gotPdu,good]
        exact .inl ⟨rfl,rfl⟩
    | getRefconn | send | deadline | await | wake | timeout | again | finish | ret | bound => cases own

theorem step_calls (taken : step s label = some s') (pending : s'.calls x = some k) :
    s.calls x = some k ∨ (x = s.xid ∧ k = s.callers.length) := by
  rcases step_cases taken with quiet | ⟨proc,args,ty,junk,rfl,accepted,rfl⟩ | ⟨pdu,rfl,good,rfl⟩ |
    ⟨j,cb,rfl,held,_,rfl⟩
  · exact .inl (quiet.calls ▸ pending)
  · simp only [call,accepted,if_false] at pending
    split at pending
    · rename_i fresh
      exact .inr ⟨fresh,(Option.some.inj pending).symm⟩
    · exact .inl pending
  · exact .inl ((CallTable.gotPdu_table good).1 ▸ pending)
  · simp only [finish,setCaller] at pending
    split at pending
    · cases pending
    · exact .inl pending

theorem made_accepted (taken : step s (.call proc args ty junk) = some s')
    (found : s'.callers[s.callers.length]? = some ca) : ¬ Refused s proc := by
  intro refused
  cases Option.some.inj taken
  rw [call,if_pos refused,List.getElem?_eq_none (Nat.le_refl _)] at found
  cases found

theorem step_unbound (valid : Invariant s) (linked : Linked clt s) (taken : step s label = some s')
    (free : s'.bindDone = false) (k : Nat) (ca : Caller) (found : s'.callers[k]? = some ca) :
    ca.header.proc = RpcConst.bind := by
  have before : s.bindDone = false := by
    rcases step_binding linked taken with ⟨same,_⟩ | ⟨now,_⟩
    · exact same ▸ free
    · rw [free] at now; cases now
  rcases CallTable.step_origin taken found with ⟨old,held,kept⟩ | ⟨proc,args,ty,junk,rfl,rfl,rfl⟩
  · rw [kept.header]
    exact valid.unbound before k old held
  · have accepted := made_accepted taken found
    exact Classical.byContradiction fun other => accepted (.inl ⟨other,before⟩)

theorem step_bound (valid : Invariant s) (linked : Linked clt s) (taken : step s label = some s')
    (done : s'.bindDone = true) : Bound s' s'.srvNonce := by
  rcases step_binding linked taken with ⟨flag,nonce⟩ | ⟨_,now⟩
  · rw [nonce]
    exact (valid.bound (flag ▸ done)).later linked taken
  · exact now

theorem step_binds (valid : Invariant s) (taken : step s label = some s') (j k : Nat) (ca cb : Caller)
    (found : s'.callers[k]? = some ca) (bind : ca.header.proc = RpcConst.bind) (order : j ≤ k)
    (earlier : s'.callers[j]? = some cb) : cb.header.proc = RpcConst.bind := by
  rcases CallTable.step_origin taken found with ⟨old,held,kept⟩ | ⟨proc,args,ty,junk,rfl,rfl,rfl⟩
  · rw [kept.header] at bind
    rcases CallTable.step_origin taken earlier with ⟨older,there,same⟩ | ⟨_,_,_,_,_,rfl,_⟩
    · rw [same.header]
      exact valid.binds j k old older held bind order there
    · have inside := (List.getElem?_eq_some_iff.mp held).1
      omega
  · -- A bind is only made while bind_done_ is false.
    have accepted := made_accepted taken found
    have before : s.bindDone = false := by
      cases flag : s.bindDone with
      | false => rfl
      | true => exact absurd (.inr ⟨bind,flag⟩) accepted
    rcases CallTable.step_origin taken earlier with ⟨older,there,same⟩ | ⟨_,_,_,_,own,_,rfl⟩
    · rw [same.header]
      exact valid.unbound before j older there
    · cases own
      exact bind

theorem step_others (valid : Invariant s) (linked : Linked clt s) (taken : step s label = some s') (k : Nat) (ca : Caller)
    (found : s'.callers[k]? = some ca) (other : ca.header.proc ≠ RpcConst.bind) : Bound s' ca.header.srvNonce := by
  rcases CallTable.step_origin taken found with ⟨old,held,kept⟩ | ⟨proc,args,ty,junk,rfl,rfl,rfl⟩
  · rw [kept.header] at other ⊢
    exact (valid.others k old held other).later linked taken
  · have accepted := made_accepted taken found
    have done : s.bindDone = true := by
      cases flag : s.bindDone with
      | true => rfl
      | false => exact absurd (.inl ⟨other,flag⟩) accepted
    exact (valid.bound done).later linked taken

theorem step_latest (valid : Invariant s) (taken : step s label = some s') (x : UInt32) (k : Nat)
    (pending : s'.calls x = some k) (j : Nat) (ca : Caller) (found : s'.callers[j]? = some ca) (xid : ca.xid = x) :
    j ≤ k := by
  rcases CallTable.step_origin taken found with ⟨old,held,kept⟩ | ⟨proc,args,ty,junk,rfl,rfl,rfl⟩
  · rcases step_calls taken pending with before | ⟨_,rfl⟩
    · exact valid.latest x k before j old held (kept.xid ▸ xid)
    · exact Nat.le_of_lt (List.getElem?_eq_some_iff.mp held).1
  · have accepted := made_accepted taken found
    cases Option.some.inj taken
    have here : (call s proc args ty junk).calls s.xid = some s.callers.length := by simp [call,if_neg accepted]
    rw [← xid] at pending
    have pending := here.symm.trans pending
    exact Nat.le_of_eq (Option.some.inj pending)

theorem step_invariant (valid : Invariant s) (linked : Linked clt s) (taken : step s label = some s') : Invariant s' :=
  ⟨step_unbound valid linked taken,step_bound valid linked taken,step_binds valid taken,
    step_others valid linked taken,step_latest valid taken⟩

theorem Invariant.pending_bind (valid : Invariant s) (pending : s.calls x = some k) (held : s.callers[k]? = some ca)
    (bind : ca.header.proc = RpcConst.bind) (j : Nat) (cb : Caller) (found : s.callers[j]? = some cb)
    (xid : cb.xid = x) : cb.header.proc = RpcConst.bind :=
  valid.binds j k ca cb held bind (valid.latest x k pending j cb found xid) found

theorem result_congr (un : ca'.un = ca.un) (intret : ca'.intret = ca.intret) (done : ca'.done = ca.done)
    (ty : ca'.ty = ca.ty) : result ca' = result ca := by
  unfold result
  rw [un,intret,done,ty]

theorem result_ty (good : result ca = (ret,some v)) : v.ty = ca.ty := by
  unfold result at good
  dsimp only at good
  by_cases negative : (if ca.done = true then ca.intret else RpcConst.timeoutFailure) < 0
  · rw [if_pos negative] at good
    cases (Prod.mk.inj good).2
  · rw [if_neg negative] at good
    by_cases whole : (ca.un.get ca.ty).2.okdone = true
    · rw [if_pos whole] at good
      rw [← Option.some.inj (Prod.mk.inj good).2]
      exact Unmarshall.get_ty _ _
    · rw [if_neg whole] at good
      cases (Prod.mk.inj good).2

theorem result_negative (done : ca.done = true) (negative : ca.intret < 0) : result ca = (ca.intret,none) := by
  simp [result,done,negative]

theorem result_undone (waiting : ca.done = false) : result ca = (RpcConst.timeoutFailure,none) := by
  simp [result,waiting,RpcConst.timeoutFailure]

theorem step_bindReply (linked : Linked clt s) (taken : step s label = some s') (quiet : ∀ pdu, label ≠ .gotPdu pdu)
    (found : s'.callers[k]? = some ca') (reply : BindReply ca' v) : ∃ ca, s.callers[k]? = some ca ∧ BindReply ca v := by
  obtain ⟨bind,r,good,same⟩ := reply
  rcases CallTable.step_origin taken found with ⟨ca,held,kept⟩ | ⟨proc,args,ty,junk,_,_,rfl⟩
  · obtain ⟨other,now,how⟩ := CallTable.step_consumes linked taken held
    cases Option.some.inj (found.symm.trans now)
    rcases how with ⟨un,intret,done⟩ | ⟨pdu,got,_⟩
    · refine ⟨ca,held,by rw [← kept.header]; exact bind,r,?_,same⟩
      rw [← result_congr un intret done kept.ty,good]
    · exact absurd got (quiet pdu)
  · rw [result_undone rfl] at good
    simp at good

end YfsLab.Binding
