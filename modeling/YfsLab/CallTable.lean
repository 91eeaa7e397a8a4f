import YfsLab.Rpcc

namespace YfsLab.CallTable
open Rpcc

variable {s s' : State} {label : Label} {k j : Nat} {ca ca' cb cb' : Caller} {clt : UInt32} {pdu : List UInt8}

-- The caller after a step of its own thread: only ch and pc have moved, and a
-- return is the return of its own reply.
structure Moves (ca ca' : Caller) : Prop where
  same : ca' = {ca with ch:=ca'.ch,pc:=ca'.pc}
  returns : ∀ ret r, ca'.pc = .returned ret r → (ret,r) = result ca

-- The caller after it was given a reply. The reply is opened outside of this
-- definition, so that nothing has to look into it to know the other fields.
def receive (ca : Caller) (reply : ReplyHeader × Unmarshall) : Caller :=
  {ca with un:=reply.2.takeIn,intret:=reply.1.ret,done:=true}

@[simp] theorem receive_xid (ca : Caller) (reply : ReplyHeader × Unmarshall) : (receive ca reply).xid = ca.xid := rfl
@[simp] theorem receive_pc (ca : Caller) (reply : ReplyHeader × Unmarshall) : (receive ca reply).pc = ca.pc := rfl
@[simp] theorem receive_gone (ca : Caller) (reply : ReplyHeader × Unmarshall) :
    (receive ca reply).gone = ca.gone := by simp [Caller.gone]

def opened (pdu : List UInt8) : ReplyHeader × Unmarshall := (Unmarshall.ofPdu pdu).unpackReplyHeader

theorem gotPdu_table (good : (Unmarshall.ofPdu pdu).unpackReplyHeader.2.ok = true) :
    (gotPdu s pdu).calls = s.calls ∧ (gotPdu s pdu).xid = s.xid ∧ (gotPdu s pdu).cltNonce = s.cltNonce ∧
    ((gotPdu s pdu).callers = s.callers ∨
      ∃ (k : Nat) (ca : Caller), s.calls (opened pdu).1.xid = some k ∧ s.callers[k]? = some ca ∧
        ca.done = false ∧ (gotPdu s pdu).callers = s.callers.set k (receive ca (opened pdu))) := by
  unfold opened
  rcases gotPdu_cases good with ⟨same,_⟩ | ⟨k,ca,pending,held,open_,same⟩
  · rw [same]
    exact ⟨rfl,rfl,rfl,.inl rfl⟩
  · rw [same]
    exact ⟨rfl,rfl,rfl,.inr ⟨k,ca,pending,held,open_,by simp only [setCaller,receive]⟩⟩

theorem step_table (taken : step s label = some s') :
    s'.callers = s.callers ∨
    (∃ proc args ty junk, label = .call proc args ty junk ∧ s' = call s proc args ty junk ∧
      s'.callers = s.callers ++ [newCaller s proc args ty junk]) ∨
    (∃ (k : Nat) (ca ca' : Caller), s.callers[k]? = some ca ∧ s'.callers = s.callers.set k ca' ∧ Moves ca ca') ∨
    ∃ (k : Nat) (ca : Caller) (pdu : List UInt8), label = .gotPdu pdu ∧ (opened pdu).2.ok = true ∧
      s.calls (opened pdu).1.xid = some k ∧ s.callers[k]? = some ca ∧ ca.done = false ∧
      s'.callers = s.callers.set k (receive ca (opened pdu)) := by
  cases own : label.caller with
  | some k =>
    obtain ⟨ca,held,taken⟩ := step_caller own taken
    refine .inr (.inr (.inl ?_))
    cases stepCaller_sound taken with
    | getRefconn | finish | bound => exact ⟨k,ca,_,held,rfl,rfl,fun ret r now => by cases now⟩
    | moves _ _ returns => exact ⟨k,ca,_,held,rfl,rfl,returns⟩
  | none =>
    cases label with
    | call proc args ty junk =>
      cases Option.some.inj taken
      by_cases refused : Refused s proc
      · exact .inl (by simp [call,refused])
      · exact .inr (.inl ⟨proc,args,ty,junk,rfl,rfl,by simp [call,refused]⟩)
    | gotPdu pdu =>
      cases Option.some.inj taken
      by_cases good : (Unmarshall.ofPdu pdu).unpackReplyHeader.2.ok = true
      · obtain ⟨_,_,_,same | ⟨k,ca,pending,held,open_,same⟩⟩ := gotPdu_table good
        · exact .inl same
        · exact .inr (.inr (.inr ⟨k,ca,pdu,rfl,by unfold opened; exact good,pending,held,open_,same⟩))
      · exact .inl (by simp [gotPdu,good])
    | connDies c => cases Option.some.inj taken; exact .inl rfl
    | getRefconn | send | deadline | await | wake | timeout | again | finish | ret | bound => cases own

structure Kept (ca ca' : Caller) : Prop where
  xid : ca'.xid = ca.xid
  header : ca'.header = ca.header
  args : ca'.args = ca.args
  ty : ca'.ty = ca.ty
  req : ca'.req = ca.req

theorem Kept.refl (ca : Caller) : Kept ca ca := ⟨rfl,rfl,rfl,rfl,rfl⟩

theorem Moves.kept (moves : Moves ca ca') : Kept ca ca' := by
  rw [moves.same]
  exact ⟨rfl,rfl,rfl,rfl,rfl⟩

theorem Moves.result (moves : Moves ca ca') : result ca' = result ca := by
  unfold Rpcc.result
  have un : ca'.un = ca.un := by rw [moves.same]
  have intret : ca'.intret = ca.intret := by rw [moves.same]
  have done : ca'.done = ca.done := by rw [moves.same]
  rw [un,intret,done,moves.kept.ty]

theorem receive_kept (ca : Caller) (reply : ReplyHeader × Unmarshall) : Kept ca (receive ca reply) :=
  ⟨rfl,rfl,rfl,rfl,rfl⟩

theorem set_kept {callers : List Caller} (held : callers[k]? = some ca) (kept : Kept ca ca')
    (found : callers[j]? = some cb) : ∃ cb', (callers.set k ca')[j]? = some cb' ∧ Kept cb cb' := by
  by_cases same : j = k
  · subst same
    cases Option.some.inj (held.symm.trans found)
    exact ⟨ca',Machine.entry_self held,kept⟩
  · exact ⟨cb,by rw [Machine.entry_other same]; exact found,.refl cb⟩

theorem step_kept (taken : step s label = some s') (found : s.callers[j]? = some cb) :
    ∃ cb', s'.callers[j]? = some cb' ∧ Kept cb cb' := by
  rcases step_table taken with same | ⟨proc,args,ty,junk,_,_,same⟩ | ⟨k,ca,ca',held,same,moves⟩ |
    ⟨k,ca,pdu,_,_,_,held,_,same⟩ <;> rw [same]
  · exact ⟨cb,found,.refl cb⟩
  · exact ⟨cb,Machine.entry_kept found,.refl cb⟩
  · exact set_kept held moves.kept found
  · exact set_kept held (receive_kept ca (opened pdu)) found

theorem step_thread (taken : step s label = some s') (held : s.callers[k]? = some ca) :
    (∃ ca', s'.callers[k]? = some ca' ∧ Kept ca ca' ∧ ca'.pc = ca.pc ∧ ca'.ch = ca.ch) ∨
      (label.caller = some k ∧ stepCaller s k ca label = some s') := by
  have stays : s'.callers[k]? = some ca →
      ∃ ca', s'.callers[k]? = some ca' ∧ Kept ca ca' ∧ ca'.pc = ca.pc ∧ ca'.ch = ca.ch :=
    fun same => ⟨ca,same,.refl ca,rfl,rfl⟩
  cases own : label.caller with
  | some j =>
    obtain ⟨cb,found,moved⟩ := step_caller own taken
    by_cases same : k = j
    · subst same
      cases Option.some.inj (held.symm.trans found)
      exact .inr ⟨rfl,moved⟩
    · have sets : ∃ cb', s'.callers = s.callers.set j cb' := by
        cases stepCaller_sound moved with
        | getRefconn | moves | finish | bound => exact ⟨_,rfl⟩
      obtain ⟨cb',table⟩ := sets
      exact .inl (stays (table ▸ (Machine.entry_other same).trans held))
  | none =>
    apply Or.inl
    cases label with
    | call proc args ty junk =>
      cases Option.some.inj taken
      by_cases refused : Refused s proc
      · exact stays (by rw [call,if_pos refused]; exact held)
      · exact stays (by rw [call_callers refused]; exact Machine.entry_kept held)
    | gotPdu pdu =>
      cases Option.some.inj taken
      by_cases good : (Unmarshall.ofPdu pdu).unpackReplyHeader.2.ok = true
      · obtain ⟨_,_,_,same | ⟨n,cb,_,found,_,same⟩⟩ := gotPdu_table (s:=s) good
        · exact stays (same ▸ held)
        · rw [same]
          by_cases at_ : k = n
          · subst at_
            cases Option.some.inj (held.symm.trans found)
            exact ⟨_,Machine.entry_self held,receive_kept ca (opened pdu),rfl,rfl⟩
          · exact ⟨ca,(Machine.entry_other at_).trans held,.refl ca,rfl,rfl⟩
      · exact stays (by simp [gotPdu,good,held])
    | connDies c =>
      cases Option.some.inj taken
      exact stays held
    | getRefconn | send | deadline | await | wake | timeout | again | finish | ret | bound => cases own

theorem step_origin (taken : step s label = some s') (found : s'.callers[j]? = some cb') :
    (∃ cb, s.callers[j]? = some cb ∧ Kept cb cb') ∨
    ∃ proc args ty junk, label = .call proc args ty junk ∧ j = s.callers.length ∧
      cb' = newCaller s proc args ty junk := by
  rcases step_table taken with same | ⟨proc,args,ty,junk,own,_,same⟩ | ⟨k,ca,ca',held,same,moves⟩ |
    ⟨k,ca,pdu,_,_,_,held,_,same⟩ <;> rw [same] at found
  · exact .inl ⟨cb',found,.refl cb'⟩
  · rcases Machine.entry_append found with old | ⟨last,rfl⟩
    · exact .inl ⟨cb',old,.refl cb'⟩
    · exact .inr ⟨proc,args,ty,junk,own,last,rfl⟩
  · rcases Machine.entry_cases found with ⟨rfl,rfl⟩ | ⟨_,old⟩
    · exact .inl ⟨ca,held,moves.kept⟩
    · exact .inl ⟨cb',old,.refl cb'⟩
  · rcases Machine.entry_cases found with ⟨rfl,rfl⟩ | ⟨_,old⟩
    · exact .inl ⟨ca,held,receive_kept ca (opened pdu)⟩
    · exact .inl ⟨cb',old,.refl cb'⟩

theorem step_nonce (taken : step s label = some s') : s'.cltNonce = s.cltNonce := by
  rcases step_cases taken with quiet | ⟨proc,args,ty,junk,rfl,accepted,rfl⟩ | ⟨pdu,rfl,good,rfl⟩ |
    ⟨k,ca,rfl,held,_,rfl⟩
  · exact quiet.cltNonce
  · simp [call,accepted]
  · exact (gotPdu_table good).2.2.1
  · rfl

structure Packed (clt : UInt32) (ca : Caller) : Prop where
  sender : ca.header.cltNonce = clt
  layout : ∃ size : List UInt8, size.length = 4 ∧ ca.req = size ++ ca.header.encode ++ encodes ca.args

structure Linked (clt : UInt32) (s : State) : Prop where
  sender : s.cltNonce = clt
  next : s.xid = UInt32.ofNat (s.callers.length+1)
  numbered : ∀ (k : Nat) (ca : Caller), s.callers[k]? = some ca →
    ca.xid = UInt32.ofNat (k+1) ∧ ca.header.xid = ca.xid
  packed : ∀ (k : Nat) (ca : Caller), s.callers[k]? = some ca → Packed clt ca
  pending : ∀ x k, s.calls x = some k → ∃ ca, s.callers[k]? = some ca ∧ ca.xid = x ∧ ca.gone = false
  returned : ∀ (k : Nat) (ca : Caller) ret r, s.callers[k]? = some ca → ca.pc = .returned ret r →
    (ret,r) = result ca

theorem initial_linked (clt : UInt32) (retrans : Bool) : Linked clt (initial clt retrans) :=
  ⟨rfl,rfl,by simp [initial],by simp [initial],by simp [initial],by simp [initial]⟩

theorem newCaller_packed (s : State) (proc : UInt32) (args : List Val) (ty : Ty) (junk : Nat → UInt8) :
    Packed s.cltNonce (newCaller s proc args ty junk) := ⟨rfl,request_layout s proc args junk⟩

theorem Packed.kept (packed : Packed clt ca) (kept : Kept ca ca') : Packed clt ca' := by
  obtain ⟨size,four,layout⟩ := packed.layout
  exact ⟨by rw [kept.header]; exact packed.sender,size,four,by rw [kept.req,kept.header,kept.args]; exact layout⟩

theorem step_next (linked : Linked clt s) (taken : step s label = some s') :
    s'.xid = UInt32.ofNat (s'.callers.length+1) := by
  rcases step_cases taken with quiet | ⟨proc,args,ty,junk,rfl,accepted,rfl⟩ | ⟨pdu,rfl,good,rfl⟩ |
    ⟨k,ca,rfl,held,_,rfl⟩
  · rw [quiet.xid,quiet.length]; exact linked.next
  · simp only [call,accepted,if_false,List.length_append,List.length_cons,List.length_nil]
    rw [linked.next]
    apply UInt32.toNat_inj.mp
    simp [UInt32.toNat_add]
  · obtain ⟨_,counter,_,same | ⟨k,ca,_,_,_,same⟩⟩ := gotPdu_table good
    · rw [counter,same]; exact linked.next
    · rw [counter,same,List.length_set]; exact linked.next
  · simpa [finish,setCaller] using linked.next

theorem step_pending (linked : Linked clt s) (taken : step s label = some s') (x : UInt32) (k : Nat)
    (pending : s'.calls x = some k) : ∃ ca, s'.callers[k]? = some ca ∧ ca.xid = x ∧ ca.gone = false := by
  rcases step_cases taken with quiet | ⟨proc,args,ty,junk,rfl,accepted,rfl⟩ | ⟨pdu,rfl,good,rfl⟩ |
    ⟨j,cb,rfl,held,_,rfl⟩
  · obtain ⟨ca,found,same,here⟩ := linked.pending x k (quiet.calls ▸ pending)
    obtain ⟨ca',now,similar⟩ := quiet.callers k ca found
    exact ⟨ca',now,similar.xid.trans same,similar.gone.trans here⟩
  · simp only [call,accepted,if_false] at pending ⊢
    split at pending
    · rename_i fresh
      cases Option.some.inj pending
      exact ⟨newCaller s proc args ty junk,by simp,fresh.symm,rfl⟩
    · obtain ⟨ca,found,same,here⟩ := linked.pending x k pending
      exact ⟨ca,Machine.entry_kept found,same,here⟩
  · obtain ⟨calls,_,_,table⟩ := gotPdu_table good
    obtain ⟨ca,found,same,here⟩ := linked.pending x k (calls ▸ pending)
    rcases table with table | ⟨j,cb,_,held,_,table⟩ <;> rw [table]
    · exact ⟨ca,found,same,here⟩
    · by_cases at_ : k = j
      · subst at_
        cases Option.some.inj (held.symm.trans found)
        exact ⟨_,Machine.entry_self held,by rw [receive_xid,same],by rw [receive_gone,here]⟩
      · exact ⟨ca,(Machine.entry_other at_).trans found,same,here⟩
  · simp only [finish,setCaller] at pending ⊢
    split at pending
    · cases pending
    · rename_i different
      obtain ⟨ca,found,same,here⟩ := linked.pending x k pending
      have at_ : k ≠ j := by
        rintro rfl
        cases Option.some.inj (held.symm.trans found)
        exact different same.symm
      exact ⟨ca,(Machine.entry_other at_).trans found,same,here⟩

theorem step_returned (linked : Linked clt s) (taken : step s label = some s') (j : Nat) (cb : Caller)
    (ret : Int32) (r : Option Val) (found : s'.callers[j]? = some cb) (pc : cb.pc = .returned ret r) :
    (ret,r) = result cb := by
  rcases step_table taken with same | ⟨proc,args,ty,junk,own,_,same⟩ | ⟨k,ca,ca',held,same,moves⟩ |
    ⟨k,ca,pdu,_,_,pending,held,_,same⟩ <;> rw [same] at found
  · exact linked.returned j cb ret r found pc
  · rcases Machine.entry_append found with old | ⟨_,rfl⟩
    · exact linked.returned j cb ret r old pc
    · cases pc
  · rcases Machine.entry_cases found with ⟨rfl,rfl⟩ | ⟨_,old⟩
    · rw [moves.returns ret r pc,moves.result]
    · exact linked.returned j cb ret r old pc
  · -- A caller that has returned is no longer in calls_.
    rcases Machine.entry_cases found with ⟨rfl,rfl⟩ | ⟨_,old⟩
    · obtain ⟨cc,again,_,here⟩ := linked.pending _ _ pending
      cases Option.some.inj (held.symm.trans again)
      rw [receive_pc] at pc
      simp [Caller.gone,pc] at here
    · exact linked.returned j cb ret r old pc

theorem step_linked (linked : Linked clt s) (taken : step s label = some s') : Linked clt s' := by
  refine ⟨(step_nonce taken).trans linked.sender,step_next linked taken,?_,?_,step_pending linked taken,
    step_returned linked taken⟩
  · intro k ca' found
    rcases step_origin taken found with ⟨ca,old,kept⟩ | ⟨proc,args,ty,junk,_,rfl,rfl⟩
    · rw [kept.xid,kept.header]
      exact linked.numbered k ca old
    · exact ⟨linked.next,rfl⟩
  · intro k ca' found
    rcases step_origin taken found with ⟨ca,old,kept⟩ | ⟨proc,args,ty,junk,_,rfl,rfl⟩
    · exact (linked.packed k ca old).kept kept
    · exact linked.sender ▸ newCaller_packed s proc args ty junk

theorem Linked.distinct (linked : Linked clt s) (few : s.callers.length < 2^32) {k j : Nat} {ca cb : Caller}
    (heldA : s.callers[k]? = some ca) (heldB : s.callers[j]? = some cb) (same : ca.xid = cb.xid) : k = j := by
  have boundA := (List.getElem?_eq_some_iff.mp heldA).1
  have boundB := (List.getElem?_eq_some_iff.mp heldB).1
  have values := congrArg UInt32.toNat same
  rw [(linked.numbered k ca heldA).1,(linked.numbered j cb heldB).1,UInt32.toNat_ofNat',
    UInt32.toNat_ofNat'] at values
  omega

theorem step_consumes (linked : Linked clt s) (taken : step s label = some s') (found : s.callers[j]? = some cb) :
    ∃ cb', s'.callers[j]? = some cb' ∧
      ((cb'.un = cb.un ∧ cb'.intret = cb.intret ∧ cb'.done = cb.done) ∨
        ∃ pdu, label = .gotPdu pdu ∧ (opened pdu).2.ok = true ∧ (opened pdu).1.xid = cb.xid ∧
          cb.done = false ∧ cb' = receive cb (opened pdu)) := by
  rcases step_table taken with same | ⟨proc,args,ty,junk,_,_,same⟩ | ⟨k,ca,ca',held,same,moves⟩ |
    ⟨k,ca,pdu,own,good,pending,held,open_,same⟩ <;> rw [same]
  · exact ⟨cb,found,.inl ⟨rfl,rfl,rfl⟩⟩
  · exact ⟨cb,Machine.entry_kept found,.inl ⟨rfl,rfl,rfl⟩⟩
  · by_cases at_ : j = k
    · subst at_
      cases Option.some.inj (held.symm.trans found)
      refine ⟨ca',Machine.entry_self held,.inl ?_⟩
      rw [moves.same]
      exact ⟨rfl,rfl,rfl⟩
    · exact ⟨cb,(Machine.entry_other at_).trans found,.inl ⟨rfl,rfl,rfl⟩⟩
  · by_cases at_ : j = k
    · subst at_
      cases Option.some.inj (held.symm.trans found)
      obtain ⟨cc,again,xid,_⟩ := linked.pending _ _ pending
      cases Option.some.inj (held.symm.trans again)
      exact ⟨_,Machine.entry_self held,.inr ⟨pdu,own,good,xid.symm,open_,rfl⟩⟩
    · exact ⟨cb,(Machine.entry_other at_).trans found,.inl ⟨rfl,rfl,rfl⟩⟩

end YfsLab.CallTable
