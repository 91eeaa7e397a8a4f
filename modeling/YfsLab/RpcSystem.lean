import YfsLab.CallTable
import YfsLab.ServerReplies

namespace YfsLab.RpcSystem
open CallTable (Linked Kept opened)
open ServerReplies (Truthful Genuine)

-- A connection is known by the client that opened it and its number there.
abbrev Conn (ι : Type) : Type := ι × Nat

-- Any number of rpcc objects and one rpcs, with the PDUs on their way.
structure State (ι : Type) where
  clients : ι → Rpcc.State
  server : Rpcs.State (Conn ι)
  requests : List (Conn ι × List UInt8)
  replies : List (Conn ι × List UInt8)

def initial {ι : Type} (nonces : ι → UInt32) (retrans : ι → Bool) : State ι :=
  ⟨fun i => Rpcc.initial (nonces i) (retrans i),Rpcs.initial,[],[]⟩

-- `arrive` and `deliver` hand the n-th PDU on its way to got_pdu. A PDU may be
-- lost, doubled, and overtaken by any other.
inductive Label (ι : Type) where
  | client (i : ι) (label : Rpcc.Label)
  | server (label : Rpcs.Label (Conn ι))
  | arrive (n : Nat)
  | deliver (n : Nat)
  | loseRequest (n : Nat)
  | loseReply (n : Nat)
  | copyRequest (n : Nat)
  | copyReply (n : Nat)

section Steps
variable {ι : Type} [DecidableEq ι]

def setClient (s : State ι) (i : ι) (client : Rpcc.State) : State ι :=
  {s with clients:=fun other => if other = i then client else s.clients other}

-- The network calls got_pdu, nobody else does.
def byNetwork : Rpcc.Label → Bool
  | .gotPdu _ => true
  | _ => false

def fromNetwork : Rpcs.Label (Conn ι) → Bool
  | .gotPdu _ _ => true
  | _ => false

-- The receiving end of a connection gives up on a PDU larger than MAX_PDU, and
-- a request stays in the connection while the job queue is full.
def step (cfg : Rpcs.Config) (s : State ι) : Label ι → Option (State ι)
  | .client i label =>
    if byNetwork label then none else
    (Rpcc.step (s.clients i) label).map fun client =>
      {setClient s i client with
        requests:=s.requests ++ ((Rpcc.emits (s.clients i) label).map fun sent => ((i,sent.1),sent.2)).toList}
  | .server label =>
    if fromNetwork label then none else
    (Rpcs.step cfg s.server label).map fun server =>
      {s with server:=server,replies:=s.replies ++ (Rpcs.emits s.server label).toList}
  | .arrive n =>
    match s.requests[n]? with
    | none => none
    | some (c,pdu) =>
      if pdu.length ≤ maxPdu ∧ s.server.queue.length < Rpcs.queueLimit then
        (Rpcs.step cfg s.server (.gotPdu c pdu)).map fun server =>
          {s with server:=server,requests:=s.requests.eraseIdx n}
      else none
  | .deliver n =>
    match s.replies[n]? with
    | none => none
    | some (c,pdu) =>
      if pdu.length ≤ maxPdu ∧ (s.clients c.1).dead c.2 = false then
        some {setClient s c.1 (Rpcc.gotPdu (s.clients c.1) pdu) with replies:=s.replies.eraseIdx n}
      else none
  | .loseRequest n => some {s with requests:=s.requests.eraseIdx n}
  | .loseReply n => some {s with replies:=s.replies.eraseIdx n}
  | .copyRequest n => some {s with requests:=s.requests ++ s.requests[n]?.toList}
  | .copyReply n => some {s with replies:=s.replies ++ s.replies[n]?.toList}

-- The rules of the system: a step of one client, a step of the server, a
-- request or a reply that gets through, and what the network does alone.
inductive Step (cfg : Rpcs.Config) (s : State ι) : Label ι → State ι → Prop where
  | client : byNetwork label = false → Rpcc.step (s.clients i) label = some client →
      Step cfg s (.client i label) {setClient s i client with
        requests:=s.requests ++ ((Rpcc.emits (s.clients i) label).map fun sent => ((i,sent.1),sent.2)).toList}
  | server : fromNetwork label = false → Rpcs.step cfg s.server label = some server →
      Step cfg s (.server label) {s with server:=server,replies:=s.replies ++ (Rpcs.emits s.server label).toList}
  | arrive : s.requests[n]? = some (c,pdu) → pdu.length ≤ maxPdu →
      Rpcs.step cfg s.server (.gotPdu c pdu) = some server →
      Step cfg s (.arrive n) {s with server:=server,requests:=s.requests.eraseIdx n}
  | deliver : s.replies[n]? = some (c,pdu) → pdu.length ≤ maxPdu →
      Step cfg s (.deliver n) {setClient s c.1 (Rpcc.gotPdu (s.clients c.1) pdu) with replies:=s.replies.eraseIdx n}
  | network : (∀ i inner, label ≠ .client i inner) → (∀ inner, label ≠ .server inner) → (∀ n, label ≠ .deliver n) →
      requests ⊆ s.requests → replies ⊆ s.replies →
      Step cfg s label {s with requests:=requests,replies:=replies}

variable {cfg : Rpcs.Config} {s s' : State ι} {label : Label ι} {i : ι} {nonces : ι → UInt32}
variable {j : Nat} {job : Rpcs.Job (Conn ι)}

theorem append_entry_subset {α : Type} (list : List α) (n : Nat) : list ++ list[n]?.toList ⊆ list := by
  intro member inside
  rcases List.mem_append.mp inside with old | again
  · exact old
  · exact List.mem_of_getElem? (Option.mem_toList.mp again)

theorem step_sound (taken : step cfg s label = some s') : Step cfg s label s' := by
  cases label with
  | client i label =>
    simp only [step] at taken
    split at taken
    · cases taken
    · rename_i own
      obtain ⟨client,moved,rfl⟩ := Option.map_eq_some_iff.mp taken
      exact .client (by simpa using own) moved
  | server label =>
    simp only [step] at taken
    split at taken
    · cases taken
    · rename_i own
      obtain ⟨server,moved,rfl⟩ := Option.map_eq_some_iff.mp taken
      exact .server (by simpa using own) moved
  | arrive n =>
    simp only [step] at taken
    split at taken
    · cases taken
    · rename_i c pdu found
      split at taken
      · rename_i fits
        obtain ⟨server,moved,rfl⟩ := Option.map_eq_some_iff.mp taken
        exact .arrive found fits.1 moved
      · cases taken
  | deliver n =>
    simp only [step] at taken
    split at taken
    · cases taken
    · rename_i c pdu found
      split at taken
      · rename_i fits
        cases Option.some.inj taken
        exact .deliver found fits.1
      · cases taken
  | loseRequest n =>
    cases Option.some.inj taken
    exact .network (by simp) (by simp) (by simp) (List.eraseIdx_subset) (fun _ => id)
  | loseReply n =>
    cases Option.some.inj taken
    exact .network (by simp) (by simp) (by simp) (fun _ => id) (List.eraseIdx_subset)
  | copyRequest n =>
    cases Option.some.inj taken
    exact .network (by simp) (by simp) (by simp) (append_entry_subset _ n) (fun _ => id)
  | copyReply n =>
    cases Option.some.inj taken
    exact .network (by simp) (by simp) (by simp) (fun _ => id) (append_entry_subset _ n)

theorem step_client (step : Step cfg s label s') (i : ι) :
    s'.clients i = s.clients i ∨ ∃ inner, Rpcc.step (s.clients i) inner = some (s'.clients i) ∧
      ((label = .client i inner ∧ byNetwork inner = false) ∨ ∃ n c pdu, label = .deliver n ∧
        s.replies[n]? = some ((i,c),pdu) ∧ pdu.length ≤ maxPdu ∧ inner = .gotPdu pdu) := by
  cases step with
  | @client inner k client own moved =>
    by_cases same : i = k
    · subst same
      exact .inr ⟨inner,by simpa [setClient] using moved,.inl ⟨rfl,own⟩⟩
    · exact .inl (by simp [setClient,same])
  | server | arrive | network => exact .inl rfl
  | @deliver n c pdu found fits =>
    obtain ⟨k,c⟩ := c
    by_cases same : i = k
    · subst same
      exact .inr ⟨.gotPdu pdu,by simp [setClient,Rpcc.step],.inr ⟨n,c,pdu,rfl,found,fits,rfl⟩⟩
    · exact .inl (by simp [setClient,same])

theorem step_server (step : Step cfg s label s') :
    (s'.server = s.server ∧ ∀ inner, label ≠ .server inner) ∨
    ∃ inner, Rpcs.step cfg s.server inner = some s'.server ∧
      ((label = .server inner ∧ fromNetwork inner = false) ∨ ∃ (n : Nat) (c : Conn ι) (pdu : List UInt8),
        label = .arrive n ∧ s.requests[n]? = some (c,pdu) ∧ pdu.length ≤ maxPdu ∧ inner = .gotPdu c pdu) := by
  cases step with
  | client | deliver => exact .inl ⟨rfl,by simp⟩
  | network _ notServer => exact .inl ⟨rfl,notServer⟩
  | server own moved => exact .inr ⟨_,moved,.inl ⟨rfl,own⟩⟩
  | arrive found fits moved => exact .inr ⟨_,moved,.inr ⟨_,_,_,rfl,found,fits,rfl⟩⟩

theorem step_kept (step : Step cfg s label s') {k : Nat} {ca : Rpcc.Caller}
    (found : (s.clients i).callers[k]? = some ca) : ∃ ca', (s'.clients i).callers[k]? = some ca' ∧ Kept ca ca' := by
  rcases step_client step i with same | ⟨inner,moved,_⟩
  · exact ⟨ca,same ▸ found,.refl ca⟩
  · exact CallTable.step_kept moved found

theorem step_linked (step : Step cfg s label s') (linked : Linked clt (s.clients i)) : Linked clt (s'.clients i) := by
  rcases step_client step i with same | ⟨inner,moved,_⟩
  · exact same ▸ linked
  · exact CallTable.step_linked linked moved

theorem step_truthful (step : Step cfg s label s') (truthful : Truthful cfg s.server) : Truthful cfg s'.server := by
  rcases step_server step with ⟨same,_⟩ | ⟨inner,moved,_⟩
  · exact same ▸ truthful
  · exact ServerReplies.step_truthful truthful (Rpcs.step_sound moved)

theorem step_trace (step : Step cfg s label s') {event : Rpcs.Event (Conn ι)} (member : event ∈ s.server.trace) :
    event ∈ s'.server.trace := by
  rcases step_server step with ⟨same,_⟩ | ⟨inner,moved,_⟩
  · exact same ▸ member
  · exact Rpcs.step_remembers_trace (Rpcs.step_sound moved) member

def Sent (s : State ι) (c : Conn ι) (pdu : List UInt8) : Prop :=
  ∃ (k : Nat) (ca : Rpcc.Caller), (s.clients c.1).callers[k]? = some ca ∧ pdu = frame ca.req

theorem Sent.later (step : Step cfg s label s') (sent : Sent s c pdu) : Sent s' c pdu := by
  obtain ⟨k,ca,found,rfl⟩ := sent
  obtain ⟨ca',now,kept⟩ := step_kept step found
  exact ⟨k,ca',now,by rw [kept.req]⟩

theorem emits_sent {inner : Rpcc.Label} {client : Rpcc.State} (emitted : Rpcc.emits client inner = some (c,pdu)) :
    ∃ (k : Nat) (ca : Rpcc.Caller), client.callers[k]? = some ca ∧ pdu = frame ca.req := by
  unfold Rpcc.emits at emitted
  split at emitted
  · split at emitted
    · cases emitted
    · rename_i ca found
      split at emitted
      · split at emitted
        · cases emitted
        · split at emitted
          · cases emitted
          · cases Option.some.inj emitted
            exact ⟨_,ca,found,rfl⟩
      · cases emitted
  · cases emitted

structure Requested (s : State ι) : Prop where
  flying : ∀ c pdu, (c,pdu) ∈ s.requests → Sent s c pdu
  queued : ∀ c pdu, (c,pdu) ∈ s.server.queue → Sent s c pdu ∧ pdu.length ≤ maxPdu
  taken : ∀ (j : Nat) job, s.server.jobs[j]? = some job → Sent s job.arrived job.pdu ∧ job.pdu.length ≤ maxPdu

theorem step_flying (requested : Requested s) (step : Step cfg s label s') (c : Conn ι) (pdu : List UInt8)
    (member : (c,pdu) ∈ s'.requests) : Sent s' c pdu := by
  have old : (c,pdu) ∈ s.requests → Sent s' c pdu := fun before => (requested.flying c pdu before).later step
  have rule := step
  cases step with
  | @client inner i client _ moved =>
    rcases List.mem_append.mp member with before | new
    · exact old before
    · obtain ⟨⟨n,bytes⟩,emitted,same⟩ := Option.map_eq_some_iff.mp (Option.mem_toList.mp new)
      obtain ⟨rfl,rfl⟩ := Prod.mk.inj same
      obtain ⟨k,ca,found,rfl⟩ := emits_sent emitted
      exact Sent.later rule ⟨k,ca,found,rfl⟩
  | server | deliver => exact old member
  | arrive => exact old (List.eraseIdx_subset member)
  | network _ _ _ subset => exact old (subset member)

theorem step_queue {server server' : Rpcs.State C} [DecidableEq C] {inner : Rpcs.Label C}
    (step : Rpcs.Step cfg server inner server') (member : (c,pdu) ∈ server'.queue) :
    (c,pdu) ∈ server.queue ∨ inner = .gotPdu c pdu := by
  cases step with
  | enqueue =>
    rcases List.mem_append.mp member with before | new
    · exact .inl before
    · cases List.mem_singleton.mp new; exact .inr rfl
  | take waiting => exact .inl (by rw [waiting]; exact List.mem_cons_of_mem _ member)
  | _ => exact .inl member

structure Fed {C : Type} (property : C → List UInt8 → Prop) (server : Rpcs.State C) : Prop where
  queued : ∀ c pdu, (c,pdu) ∈ server.queue → property c pdu
  taken : ∀ (j : Nat) job, server.jobs[j]? = some job → property job.arrived job.pdu

theorem Fed.step {C : Type} [DecidableEq C] {property : C → List UInt8 → Prop} {server server' : Rpcs.State C}
    {inner : Rpcs.Label C} (fed : Fed property server) (step : Rpcs.Step cfg server inner server')
    (given : ∀ c pdu, inner = .gotPdu c pdu → property c pdu) : Fed property server' := by
  constructor
  · intro c pdu member
    rcases step_queue step member with before | arrived
    · exact fed.queued c pdu before
    · exact given c pdu arrived
  · intro j job found
    rcases Rpcs.step_jobs step with same | ⟨c,pdu,junk,rest,waiting,same⟩ |
      ⟨k,before,after,_,held,same,moves⟩ <;> rw [same] at found
    · exact fed.taken j job found
    · rcases Machine.entry_append found with before | ⟨_,rfl⟩
      · exact fed.taken j job before
      · exact fed.queued c pdu (by rw [waiting]; exact List.mem_cons_self)
    · rcases Machine.entry_cases found with ⟨rfl,rfl⟩ | ⟨_,before⟩
      · rw [moves.arrived,moves.pdu]
        exact fed.taken j before held
      · exact fed.taken j job before

theorem step_fed (requested : Requested s) (step : Step cfg s label s') :
    Fed (fun c pdu => Sent s' c pdu ∧ pdu.length ≤ maxPdu) s'.server := by
  have old : Fed (fun c pdu => Sent s' c pdu ∧ pdu.length ≤ maxPdu) s.server :=
    ⟨fun c pdu member => (requested.queued c pdu member).imp_left (Sent.later step),
      fun j job found => (requested.taken j job found).imp_left (Sent.later step)⟩
  rcases step_server step with ⟨same,_⟩ | ⟨inner,moved,why⟩
  · exact same ▸ old
  · refine old.step (Rpcs.step_sound moved) fun c pdu arrived => ?_
    rcases why with ⟨_,own⟩ | ⟨n,c',pdu',_,found,fits,rfl⟩
    · subst arrived
      cases own
    · cases arrived
      exact ⟨(requested.flying c pdu (List.mem_of_getElem? found)).later step,fits⟩

theorem step_requested (requested : Requested s) (step : Step cfg s label s') : Requested s' :=
  have fed := step_fed requested step
  ⟨step_flying requested step,fed.queued,fed.taken⟩

omit [DecidableEq ι] in
theorem request_reads {client : Rpcc.State} {k : Nat} {ca : Rpcc.Caller} (linked : Linked clt client)
    (held : client.callers[k]? = some ca) (bytes : job.pdu = frame ca.req) (fits : job.pdu.length ≤ maxPdu) :
    job.h = ca.header ∧ job.h.cltNonce = clt ∧ job.req.rest = encodes ca.args ∧ job.req.ok = true ∧
      job.req.ind ≤ job.req.buf.length ∧ job.req.buf.length < 2^32 := by
  have packed := linked.packed k ca held
  obtain ⟨size,four,layout⟩ := packed.layout
  have framed : job.pdu = Words.be32 (UInt32.ofNat ca.req.length) ++ ca.header.encode ++ encodes ca.args := by
    rw [bytes,frame,layout,List.append_assoc,List.drop_left' four,List.append_assoc]
  have unpacked := Unmarshall.unpackReqHeader_pdu (Words.be32 (UInt32.ofNat ca.req.length)) (encodes ca.args) rfl
    ca.header
  rw [← framed] at unpacked
  have header : job.h = ca.header := by rw [Rpcs.Job.h,unpacked]
  have reader : job.req = ⟨job.pdu,rpcHeaderSz,true⟩ := by rw [Rpcs.Job.req,unpacked]
  have long : rpcHeaderSz ≤ job.pdu.length := by
    rw [framed,List.length_append,List.length_append,ReqHeader.encode_length,Words.be32_length]
    simp only [rpcHeaderSz]
    omega
  refine ⟨header,by rw [header]; exact packed.sender,?_,by rw [reader],by rw [reader]; exact long,?_⟩
  · rw [reader,Unmarshall.rest]
    show job.pdu.drop rpcHeaderSz = encodes ca.args
    rw [framed]
    exact List.drop_left' (by simp [rpcHeaderSz])
  · rw [reader]
    show job.pdu.length < 2^32
    simp only [maxPdu] at fits
    omega

omit [DecidableEq ι] in
theorem job_reads (requested : Requested s) (linked : ∀ i, Linked (nonces i) (s.clients i))
    (found : s.server.jobs[j]? = some job) :
    ∃ (k : Nat) (ca : Rpcc.Caller), (s.clients job.arrived.1).callers[k]? = some ca ∧ job.h = ca.header ∧
      job.h.cltNonce = nonces job.arrived.1 ∧ job.req.rest = encodes ca.args ∧ job.req.ok = true ∧
      job.req.ind ≤ job.req.buf.length ∧ job.req.buf.length < 2^32 := by
  obtain ⟨⟨k,ca,held,bytes⟩,fits⟩ := requested.taken j job found
  exact ⟨k,ca,held,request_reads (linked job.arrived.1) held bytes fits⟩

theorem opened_frame {b size body : List UInt8} (four : size.length = 4)
    (layout : b = size ++ (ReplyHeader.mk xid ret).encode ++ body) :
    opened (frame b) = (⟨xid,ret⟩,⟨frame b,rpcHeaderSz,true⟩) ∧
      frame b = Words.be32 (UInt32.ofNat b.length) ++ (ReplyHeader.mk xid ret).encode ++ body := by
  have framed : frame b = Words.be32 (UInt32.ofNat b.length) ++ (ReplyHeader.mk xid ret).encode ++ body := by
    rw [frame,layout,List.append_assoc size,List.drop_left' four,List.append_assoc]
  refine ⟨?_,framed⟩
  rw [framed]
  exact Unmarshall.unpackReplyHeader_pdu _ _ rfl _

structure Sound (cfg : Rpcs.Config) (nonces : ι → UInt32) (s : State ι) : Prop where
  linked : ∀ i, Linked (nonces i) (s.clients i)
  requested : Requested s
  truthful : Truthful cfg s.server

omit [DecidableEq ι] in
theorem initial_sound (cfg : Rpcs.Config) (nonces : ι → UInt32) (retrans : ι → Bool) :
    Sound cfg nonces (initial nonces retrans) :=
  ⟨fun i => CallTable.initial_linked (nonces i) (retrans i),
    ⟨by simp [initial],by simp [initial,Rpcs.initial],by simp [initial,Rpcs.initial]⟩,
    ServerReplies.initial_truthful cfg⟩

theorem step_keeps_sound (sound : Sound cfg nonces s) (step : Step cfg s label s') : Sound cfg nonces s' :=
  ⟨fun i => step_linked step (sound.linked i),step_requested sound.requested step,
    step_truthful step sound.truthful⟩

theorem Sound.later {ok : State ι → Label ι → Prop} (sound : Sound cfg nonces s)
    (path : Machine.Runs (step cfg) ok s labels s') : Sound cfg nonces s' :=
  path.invariant sound (fun _ _ _ sound _ taken => step_keeps_sound sound (step_sound taken))

theorem runs_sound {ok : State ι → Label ι → Prop}
    (path : Machine.Runs (step cfg) ok (initial nonces retrans) labels s) : Sound cfg nonces s :=
  (initial_sound cfg nonces retrans).later path

omit [DecidableEq ι] in
theorem Sound.owner (sound : Sound cfg nonces s) (unique : ∀ k, nonces k = nonces i → k = i)
    (found : s.server.jobs[j]? = some job) : job.h.cltNonce = nonces i ↔ job.arrived.1 = i := by
  obtain ⟨k,ca,_,_,nonce,_⟩ := job_reads sound.requested sound.linked found
  rw [nonce]
  exact ⟨unique _,fun same => by rw [same]⟩

theorem step_conns {server server' : Rpcs.State (Conn ι)} {inner : Rpcs.Label (Conn ι)}
    (step : Rpcs.Step cfg server inner server') (now : server'.conns n = some (some c)) :
    server.conns n = some (some c) ∨ ∃ (j : Nat) (job : Rpcs.Job (Conn ι)),
      server.jobs[j]? = some job ∧ job.pc = .record ∧ job.h.cltNonce = n ∧ job.conn = c := by
  cases step with
  | recordFirst held pc | recordOther held pc =>
    dsimp only at now
    split at now
    · rename_i same
      cases now
      exact .inr ⟨_,_,held,pc,same.symm,rfl⟩
    · exact .inl now
  | chooseMissing held =>
    dsimp only at now
    split at now
    · cases now
    · exact .inl now
  | _ => exact .inl now

-- A client that shares its nonce with nobody has its replies for itself.
structure Routed (nonces : ι → UInt32) (i : ι) (s : State ι) : Prop where
  recorded : ∀ n c, s.server.conns n = some (some c) → (c.1 = i ↔ n = nonces i)
  dispatched : ∀ (j : Nat) job, s.server.jobs[j]? = some job → (job.conn.1 = i ↔ job.arrived.1 = i)
  replies : ∀ c pdu, (c,pdu) ∈ s.replies → c.1 = i →
    ∃ (k : Nat) (ca : Rpcc.Caller) (b : List UInt8), (s.clients i).callers[k]? = some ca ∧
      Genuine s.server.trace (nonces i) ca.xid b ∧ pdu = frame b

omit [DecidableEq ι] in
theorem initial_routed (nonces : ι → UInt32) (retrans : ι → Bool) (i : ι) :
    Routed nonces i (initial nonces retrans) :=
  ⟨by simp [initial,Rpcs.initial],by simp [initial,Rpcs.initial],by simp [initial]⟩

theorem step_recorded (sound : Sound cfg nonces s) (unique : ∀ k, nonces k = nonces i → k = i)
    (routed : Routed nonces i s) (step : Step cfg s label s') (n : UInt32) (c : Conn ι)
    (now : s'.server.conns n = some (some c)) : c.1 = i ↔ n = nonces i := by
  rcases step_server step with ⟨same,_⟩ | ⟨inner,moved,_⟩
  · exact routed.recorded n c (same ▸ now)
  · rcases step_conns (Rpcs.step_sound moved) now with old | ⟨j,job,held,_,rfl,rfl⟩
    · exact routed.recorded n c old
    · rw [routed.dispatched j job held,sound.owner unique held]

theorem step_dispatched (sound : Sound cfg nonces s) (unique : ∀ k, nonces k = nonces i → k = i)
    (routed : Routed nonces i s) (step : Step cfg s label s') (j : Nat) (job : Rpcs.Job (Conn ι))
    (now : s'.server.jobs[j]? = some job) : job.conn.1 = i ↔ job.arrived.1 = i := by
  rcases step_server step with ⟨same,_⟩ | ⟨inner,moved,_⟩
  · exact routed.dispatched j job (same ▸ now)
  · rcases Rpcs.step_jobs (Rpcs.step_sound moved) with same | ⟨c,pdu,junk,rest,waiting,same⟩ |
      ⟨k,before,after,_,held,same,moves⟩ <;> rw [same] at now
    · exact routed.dispatched j job now
    · rcases Machine.entry_append now with old | ⟨_,rfl⟩
      · exact routed.dispatched j job old
      · exact Iff.rfl
    · rcases Machine.entry_cases now with ⟨rfl,rfl⟩ | ⟨_,old⟩
      · rw [moves.arrived]
        rcases moves.conn with kept | ⟨_,latest⟩
        · rw [kept]; exact routed.dispatched j before held
        · rw [routed.recorded _ _ latest,sound.owner unique held]
      · exact routed.dispatched j job old

omit [DecidableEq ι] in
theorem emits_replied {server : Rpcs.State (Conn ι)} {inner : Rpcs.Label (Conn ι)}
    (emitted : Rpcs.emits server inner = some (c,pdu)) :
    ∃ (j : Nat) (job : Rpcs.Job (Conn ι)), server.jobs[j]? = some job ∧ ServerReplies.replied job.pc ∧
      c = job.conn ∧ pdu = frame job.b1 := by
  unfold Rpcs.emits at emitted
  split at emitted
  · split at emitted
    · cases emitted
    · rename_i job held
      split at emitted
      · rename_i ready
        cases Option.some.inj emitted
        refine ⟨_,job,held,?_,rfl,rfl⟩
        rcases ready.1 with pc | pc <;> rw [pc] <;> trivial
      · cases emitted
  · cases emitted

theorem step_replies (sound : Sound cfg nonces s) (routed : Routed nonces i s) (step : Step cfg s label s') (c : Conn ι)
    (pdu : List UInt8) (member : (c,pdu) ∈ s'.replies) (own : c.1 = i) :
    ∃ (k : Nat) (ca : Rpcc.Caller) (b : List UInt8), (s'.clients i).callers[k]? = some ca ∧
      Genuine s'.server.trace (nonces i) ca.xid b ∧ pdu = frame b := by
  have persists : ∀ (k : Nat) (ca : Rpcc.Caller) (b : List UInt8), (s.clients i).callers[k]? = some ca →
      Genuine s.server.trace (nonces i) ca.xid b → ∃ (k : Nat) (ca' : Rpcc.Caller) (b' : List UInt8),
        (s'.clients i).callers[k]? = some ca' ∧ Genuine s'.server.trace (nonces i) ca'.xid b' ∧
          frame b = frame b' := by
    intro k ca b found genuine
    obtain ⟨ca',now,kept⟩ := step_kept step found
    exact ⟨k,ca',b,now,kept.xid ▸ genuine.later (fun _ => step_trace step),rfl⟩
  have old : (c,pdu) ∈ s.replies → ∃ (k : Nat) (ca : Rpcc.Caller) (b : List UInt8),
      (s'.clients i).callers[k]? = some ca ∧ Genuine s'.server.trace (nonces i) ca.xid b ∧ pdu = frame b := by
    intro before
    obtain ⟨k,ca,b,found,genuine,rfl⟩ := routed.replies c pdu before own
    exact persists k ca b found genuine
  cases step with
  | client | arrive => exact old member
  | deliver => exact old (List.eraseIdx_subset member)
  | network _ _ _ _ subset => exact old (subset member)
  | @server inner server _ moved =>
    rcases List.mem_append.mp member with before | new
    · exact old before
    · obtain ⟨j,job,held,ready,rfl,rfl⟩ := emits_replied (Option.mem_toList.mp new)
      have arrived := (routed.dispatched j job held).mp own
      obtain ⟨k,ca,found,header,nonce,_⟩ := job_reads sound.requested sound.linked held
      have genuine := sound.truthful.replies j job held ready
      rw [nonce,arrived,header,((sound.linked _).numbered k ca found).2] at genuine
      exact persists k ca job.b1 (arrived ▸ found) genuine

theorem step_routed (sound : Sound cfg nonces s) (unique : ∀ k, nonces k = nonces i → k = i)
    (routed : Routed nonces i s) (step : Step cfg s label s') : Routed nonces i s' :=
  ⟨step_recorded sound unique routed step,step_dispatched sound unique routed step,
    step_replies sound routed step⟩

theorem runs_routed {ok : State ι → Label ι → Prop} (unique : ∀ k, nonces k = nonces i → k = i)
    (path : Machine.Runs (step cfg) ok (initial nonces retrans) labels s) : Routed nonces i s :=
  path.invariant_reached (initial_routed nonces retrans i)
    (fun _ _ _ _ prior routed _ taken => step_routed (runs_sound prior) unique routed (step_sound taken))

end Steps
end YfsLab.RpcSystem
