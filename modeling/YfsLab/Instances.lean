import YfsLab.Binding
import YfsLab.ReplyTarget
import YfsLab.RightResult
import YfsLab.StaleRequests

namespace YfsLab.Instances
open RpcSystem (Conn byNetwork fromNetwork)
open CallTable (Linked Kept opened receive)
open ServerReplies (Truthful Genuine Unshared own)
open StaleRequests (TurnedAway)

-- Any number of rpcc objects and of instances of the server. `answered` is
-- history: the calls that were given a reply, and the instance that sent it.
structure State (ι σ : Type) where
  clients : ι → Rpcc.State
  servers : σ → Rpcs.State (Conn ι)
  requests : List (Conn ι × List UInt8)
  replies : List (σ × Conn ι × List UInt8)
  answered : List (ι × Nat × σ)

def initial {ι σ : Type} (nonces : ι → UInt32) (retrans : ι → Bool) : State ι σ :=
  ⟨fun i => Rpcc.initial (nonces i) (retrans i),fun _ => Rpcs.initial,[],[],[]⟩

inductive Label (ι σ : Type) where
  | client (i : ι) (label : Rpcc.Label)
  | server (S : σ) (label : Rpcs.Label (Conn ι))
  | arrive (S : σ) (n : Nat)
  | deliver (n : Nat)
  | loseRequest (n : Nat)
  | loseReply (n : Nat)
  | copyRequest (n : Nat)
  | copyReply (n : Nat)

def consumer (s : Rpcc.State) (pdu : List UInt8) : Option Nat :=
  if (opened pdu).2.ok then
    match s.calls (opened pdu).1.xid with
    | none => none
    | some k =>
      match s.callers[k]? with
      | none => none
      | some ca => if ca.done then none else some k
  else none

section Steps
variable {ι σ : Type} [DecidableEq ι] [DecidableEq σ]

def setClient (s : State ι σ) (i : ι) (client : Rpcc.State) : State ι σ :=
  {s with clients:=fun other => if other = i then client else s.clients other}

def setServer (s : State ι σ) (S : σ) (server : Rpcs.State (Conn ι)) : State ι σ :=
  {s with servers:=fun other => if other = S then server else s.servers other}

-- An instance that is not running, before its start or after its end, takes no
-- step. A request goes to any instance that has accepted its connection.
def step (cfg : σ → Rpcs.Config) (s : State ι σ) : Label ι σ → Option (State ι σ)
  | .client i label =>
    if byNetwork label then none else
    (Rpcc.step (s.clients i) label).map fun client =>
      {setClient s i client with
        requests:=s.requests ++ ((Rpcc.emits (s.clients i) label).map fun sent => ((i,sent.1),sent.2)).toList}
  | .server S label =>
    if fromNetwork label then none else
    (Rpcs.step (cfg S) (s.servers S) label).map fun server =>
      {setServer s S server with
        replies:=s.replies ++ ((Rpcs.emits (s.servers S) label).map fun sent => (S,sent)).toList}
  | .arrive S n =>
    match s.requests[n]? with
    | none => none
    | some (c,pdu) =>
      if pdu.length ≤ maxPdu ∧ (s.servers S).queue.length < Rpcs.queueLimit then
        (Rpcs.step (cfg S) (s.servers S) (.gotPdu c pdu)).map fun server =>
          {setServer s S server with requests:=s.requests.eraseIdx n}
      else none
  | .deliver n =>
    match s.replies[n]? with
    | none => none
    | some (S,c,pdu) =>
      if pdu.length ≤ maxPdu ∧ (s.clients c.1).dead c.2 = false then
        some {setClient s c.1 (Rpcc.gotPdu (s.clients c.1) pdu) with
          replies:=s.replies.eraseIdx n
          answered:=s.answered ++ ((consumer (s.clients c.1) pdu).map fun k => (c.1,k,S)).toList}
      else none
  | .loseRequest n => some {s with requests:=s.requests.eraseIdx n}
  | .loseReply n => some {s with replies:=s.replies.eraseIdx n}
  | .copyRequest n => some {s with requests:=s.requests ++ s.requests[n]?.toList}
  | .copyReply n => some {s with replies:=s.replies ++ s.replies[n]?.toList}

inductive Step (cfg : σ → Rpcs.Config) (s : State ι σ) : State ι σ → Prop where
  | client : byNetwork label = false → Rpcc.step (s.clients i) label = some client →
      Step cfg s {setClient s i client with
        requests:=s.requests ++ ((Rpcc.emits (s.clients i) label).map fun sent => ((i,sent.1),sent.2)).toList}
  | server : fromNetwork label = false → Rpcs.step (cfg S) (s.servers S) label = some server →
      Step cfg s {setServer s S server with
        replies:=s.replies ++ ((Rpcs.emits (s.servers S) label).map fun sent => (S,sent)).toList}
  | arrive : s.requests[n]? = some (c,pdu) → pdu.length ≤ maxPdu →
      Rpcs.step (cfg S) (s.servers S) (.gotPdu c pdu) = some server →
      Step cfg s {setServer s S server with requests:=s.requests.eraseIdx n}
  | deliver : s.replies[n]? = some (S,c,pdu) → pdu.length ≤ maxPdu →
      Step cfg s {setClient s c.1 (Rpcc.gotPdu (s.clients c.1) pdu) with
        replies:=s.replies.eraseIdx n
        answered:=s.answered ++ ((consumer (s.clients c.1) pdu).map fun k => (c.1,k,S)).toList}
  | network : requests ⊆ s.requests → replies ⊆ s.replies → Step cfg s {s with requests:=requests,replies:=replies}

variable {cfg : σ → Rpcs.Config} {s s' : State ι σ} {label : Label ι σ} {i : ι} {S : σ} {nonces : ι → UInt32}

theorem step_sound (taken : step cfg s label = some s') : Step cfg s s' := by
  cases label with
  | client i label =>
    simp only [step] at taken
    split at taken
    · cases taken
    · rename_i own
      obtain ⟨client,moved,rfl⟩ := Option.map_eq_some_iff.mp taken
      exact .client (by simpa using own) moved
  | server S label =>
    simp only [step] at taken
    split at taken
    · cases taken
    · rename_i own
      obtain ⟨server,moved,rfl⟩ := Option.map_eq_some_iff.mp taken
      exact .server (by simpa using own) moved
  | arrive S n =>
    simp only [step] at taken
    split at taken
    · cases taken
    · rename_i c pdu found
      split at taken
      · rename_i fits
        obtain ⟨server,moved,rfl⟩ := Option.map_eq_some_iff.mp taken
        exact .arrive found fits.1 moved
      · cases taken
  | deliver n =>
    simp only [step] at taken
    split at taken
    · cases taken
    · rename_i S c pdu found
      split at taken
      · rename_i fits
        cases Option.some.inj taken
        exact .deliver found fits.1
      · cases taken
  | loseRequest n => cases Option.some.inj taken; exact .network List.eraseIdx_subset (fun _ => id)
  | loseReply n => cases Option.some.inj taken; exact .network (fun _ => id) List.eraseIdx_subset
  | copyRequest n =>
    cases Option.some.inj taken
    exact .network (RpcSystem.append_entry_subset _ n) (fun _ => id)
  | copyReply n =>
    cases Option.some.inj taken
    exact .network (fun _ => id) (RpcSystem.append_entry_subset _ n)

theorem step_client (step : Step cfg s s') (i : ι) :
    (s'.clients i = s.clients i) ∨
    (∃ inner, byNetwork inner = false ∧ Rpcc.step (s.clients i) inner = some (s'.clients i)) ∨
    ∃ S c pdu, (S,(i,c),pdu) ∈ s.replies ∧ pdu.length ≤ maxPdu ∧ s'.clients i = Rpcc.gotPdu (s.clients i) pdu ∧
      ∀ k, consumer (s.clients i) pdu = some k → (i,k,S) ∈ s'.answered := by
  cases step with
  | @client inner k client own moved =>
    by_cases same : i = k
    · subst same
      exact .inr (.inl ⟨inner,own,by simpa [setClient] using moved⟩)
    · exact .inl (by simp [setClient,same])
  | server | arrive | network => exact .inl rfl
  | @deliver n S c pdu found fits =>
    obtain ⟨k,c⟩ := c
    by_cases same : i = k
    · subst same
      refine .inr (.inr ⟨S,c,pdu,List.mem_of_getElem? found,fits,by simp [setClient],fun k taker => ?_⟩)
      simp [taker]
    · exact .inl (by simp [setClient,same])

theorem client_moved (step : Step cfg s s') (i : ι) :
    s'.clients i = s.clients i ∨ ∃ inner, Rpcc.step (s.clients i) inner = some (s'.clients i) := by
  rcases step_client step i with same | ⟨inner,_,moved⟩ | ⟨_,_,pdu,_,_,same,_⟩
  · exact .inl same
  · exact .inr ⟨inner,moved⟩
  · exact .inr ⟨.gotPdu pdu,by rw [same]; rfl⟩

theorem step_server (step : Step cfg s s') (S : σ) :
    s'.servers S = s.servers S ∨ ∃ inner, Rpcs.step (cfg S) (s.servers S) inner = some (s'.servers S) ∧
      ∀ c pdu, inner = .gotPdu c pdu → (c,pdu) ∈ s.requests ∧ pdu.length ≤ maxPdu := by
  cases step with
  | client | deliver | network => exact .inl rfl
  | @server inner T server own moved =>
    by_cases same : S = T
    · subst same
      refine .inr ⟨inner,by simpa [setServer] using moved,?_⟩
      rintro c pdu rfl
      cases own
    · exact .inl (by simp [setServer,same])
  | @arrive n c pdu T server found fits moved =>
    by_cases same : S = T
    · subst same
      refine .inr ⟨_,by simpa [setServer] using moved,?_⟩
      intro c' pdu' equal
      cases equal
      exact ⟨List.mem_of_getElem? found,fits⟩
    · exact .inl (by simp [setServer,same])

structure Local (cfg : σ → Rpcs.Config) (nonces : ι → UInt32) (s : State ι σ) : Prop where
  linked : ∀ i, Linked (nonces i) (s.clients i)
  binding : ∀ i, Binding.Invariant (s.clients i)
  truthful : ∀ S, Truthful (cfg S) (s.servers S)
  target : ∀ S, ReplyTarget.Invariant (s.servers S)
  stale : ∀ S, StaleRequests.Invariant (cfg S) (s.servers S)
  unshared : ∀ S, Unshared (s.servers S)

omit [DecidableEq ι] [DecidableEq σ] in
theorem initial_local (cfg : σ → Rpcs.Config) (nonces : ι → UInt32) (retrans : ι → Bool) :
    Local cfg nonces (initial nonces retrans) where
  linked := fun i => CallTable.initial_linked (nonces i) (retrans i)
  binding := fun i => Binding.initial_invariant (nonces i) (retrans i)
  truthful := fun S => ServerReplies.initial_truthful (cfg S)
  target := fun _ => ReplyTarget.initial_invariant
  stale := fun S => StaleRequests.initial_invariant (cfg S)
  unshared := fun _ => ServerReplies.initial_unshared

theorem step_local (valid : Local cfg nonces s) (step : Step cfg s s') : Local cfg nonces s' := by
  have clients : ∀ i, Linked (nonces i) (s'.clients i) ∧ Binding.Invariant (s'.clients i) := by
    intro i
    rcases client_moved step i with same | ⟨inner,moved⟩
    · rw [same]
      exact ⟨valid.linked i,valid.binding i⟩
    · exact ⟨CallTable.step_linked (valid.linked i) moved,
        Binding.step_invariant (valid.binding i) (valid.linked i) moved⟩
  have servers : ∀ S, Truthful (cfg S) (s'.servers S) ∧ ReplyTarget.Invariant (s'.servers S) ∧
      StaleRequests.Invariant (cfg S) (s'.servers S) ∧ Unshared (s'.servers S) := by
    intro S
    rcases step_server step S with same | ⟨inner,moved,_⟩
    · rw [same]
      exact ⟨valid.truthful S,valid.target S,valid.stale S,valid.unshared S⟩
    · have rule := Rpcs.step_sound moved
      have nonzero := fun i job held pc => (valid.target S).nonzero i job held (.inr (.inr pc))
      exact ⟨ServerReplies.step_truthful (valid.truthful S) rule,ReplyTarget.step_invariant (valid.target S) moved,
        StaleRequests.step_invariant (valid.stale S) moved,
        ServerReplies.step_unshared (valid.unshared S) nonzero rule⟩
  exact ⟨fun i => (clients i).1,fun i => (clients i).2,fun S => (servers S).1,fun S => (servers S).2.1,
    fun S => (servers S).2.2.1,fun S => (servers S).2.2.2⟩

def Sent (client : Rpcc.State) (pdu : List UInt8) : Prop :=
  ∃ (k : Nat) (ca : Rpcc.Caller), client.callers[k]? = some ca ∧ pdu = frame ca.req

theorem Sent.later {c : Conn ι} (step : Step cfg s s') (sent : Sent (s.clients c.1) pdu) : Sent (s'.clients c.1) pdu := by
  obtain ⟨k,ca,found,rfl⟩ := sent
  rcases client_moved step c.1 with same | ⟨inner,moved⟩
  · exact ⟨k,ca,by rw [same]; exact found,rfl⟩
  · obtain ⟨ca',now,kept⟩ := CallTable.step_kept moved found
    exact ⟨k,ca',now,by rw [kept.req]⟩

structure Requested (s : State ι σ) : Prop where
  flying : ∀ c pdu, (c,pdu) ∈ s.requests → Sent (s.clients c.1) pdu
  queued : ∀ S c pdu, (c,pdu) ∈ (s.servers S).queue → Sent (s.clients c.1) pdu ∧ pdu.length ≤ maxPdu
  taken : ∀ S (j : Nat) job, (s.servers S).jobs[j]? = some job →
    Sent (s.clients job.arrived.1) job.pdu ∧ job.pdu.length ≤ maxPdu

theorem step_flying (requested : Requested s) (step : Step cfg s s') (c : Conn ι) (pdu : List UInt8)
    (member : (c,pdu) ∈ s'.requests) : Sent (s'.clients c.1) pdu := by
  have old : (c,pdu) ∈ s.requests → Sent (s'.clients c.1) pdu :=
    fun before => (requested.flying c pdu before).later step
  have rule := step
  cases step with
  | @client inner i client _ moved =>
    rcases List.mem_append.mp member with before | new
    · exact old before
    · obtain ⟨⟨n,bytes⟩,emitted,same⟩ := Option.map_eq_some_iff.mp (Option.mem_toList.mp new)
      obtain ⟨rfl,rfl⟩ := Prod.mk.inj same
      have sent : Sent (s.clients i) bytes := RpcSystem.emits_sent emitted
      exact Sent.later (c:=(i,n)) rule sent
  | server | deliver => exact old member
  | arrive => exact old (List.eraseIdx_subset member)
  | network subset => exact old (subset member)

theorem step_fed (requested : Requested s) (step : Step cfg s s') (S : σ) :
    RpcSystem.Fed (fun c pdu => Sent (s'.clients c.1) pdu ∧ pdu.length ≤ maxPdu) (s'.servers S) := by
  have old : RpcSystem.Fed (fun c pdu => Sent (s'.clients c.1) pdu ∧ pdu.length ≤ maxPdu) (s.servers S) :=
    ⟨fun c pdu member => (requested.queued S c pdu member).imp_left (Sent.later step),
      fun j job found => (requested.taken S j job found).imp_left (Sent.later step)⟩
  rcases step_server step S with same | ⟨inner,moved,why⟩
  · exact same ▸ old
  · refine old.step (Rpcs.step_sound moved) fun c pdu arrived => ?_
    obtain ⟨flying,fits⟩ := why c pdu arrived
    exact ⟨(requested.flying c pdu flying).later step,fits⟩

structure Sound (cfg : σ → Rpcs.Config) (nonces : ι → UInt32) (s : State ι σ) : Prop extends Local cfg nonces s where
  requested : Requested s

omit [DecidableEq ι] [DecidableEq σ] in
theorem initial_sound (cfg : σ → Rpcs.Config) (nonces : ι → UInt32) (retrans : ι → Bool) :
    Sound cfg nonces (initial nonces retrans) :=
  ⟨initial_local cfg nonces retrans,
    ⟨by simp [initial],by simp [initial,Rpcs.initial],by simp [initial,Rpcs.initial]⟩⟩

theorem step_keeps_sound (sound : Sound cfg nonces s) (step : Step cfg s s') : Sound cfg nonces s' :=
  ⟨step_local sound.toLocal step,
    ⟨step_flying sound.requested step,fun S => (step_fed sound.requested step S).queued,
      fun S => (step_fed sound.requested step S).taken⟩⟩

theorem runs_sound {ok : State ι σ → Label ι σ → Prop}
    (path : Machine.Runs (step cfg) ok (initial nonces retrans) labels s) : Sound cfg nonces s :=
  path.invariant (initial_sound cfg nonces retrans)
    (fun _ _ _ sound _ taken => step_keeps_sound sound (step_sound taken))

variable {j : Nat} {job : Rpcs.Job (Conn ι)}

omit [DecidableEq ι] [DecidableEq σ] in
theorem Sound.request (sound : Sound cfg nonces s) (found : (s.servers S).jobs[j]? = some job) :
    ∃ (k : Nat) (ca : Rpcc.Caller), (s.clients job.arrived.1).callers[k]? = some ca ∧ job.pdu = frame ca.req ∧
      job.h = ca.header ∧ job.h.cltNonce = nonces job.arrived.1 ∧ job.req.ok = true := by
  obtain ⟨⟨k,ca,held,bytes⟩,fits⟩ := sound.requested.taken S j job found
  obtain ⟨header,nonce,_,ok,_⟩ := RpcSystem.request_reads (sound.linked _) held bytes fits
  exact ⟨k,ca,held,bytes,header,nonce,ok⟩

-- A client without a nonce, or with one that it shares with nobody.
def Own (nonces : ι → UInt32) (i : ι) : Prop := nonces i = 0 ∨ ∀ k, nonces k = nonces i → k = i

omit [DecidableEq ι] [DecidableEq σ] in
theorem Sound.owner (sound : Sound cfg nonces s) (private_ : Own nonces i)
    (found : (s.servers S).jobs[j]? = some job) (nonzero : job.h.cltNonce ≠ 0) :
    job.h.cltNonce = nonces i ↔ job.arrived.1 = i := by
  obtain ⟨_,_,_,_,_,nonce,_⟩ := sound.request found
  rw [nonce] at nonzero ⊢
  refine ⟨fun same => ?_,fun same => by rw [same]⟩
  rcases private_ with zero | unique
  · exact absurd (same.trans zero) nonzero
  · exact unique _ same

def Answers (server : Rpcs.State (Conn ι)) (i : ι) (pdu : List UInt8) : Prop :=
  ∃ (b size junk body : List UInt8) (xid : UInt32) (ret : Int32), pdu = frame b ∧ size.length = 4 ∧
    junk.length = 12 ∧ b = size ++ (ReplyHeader.mk xid ret).encode ++ (junk ++ body) ∧
    (ret < 0 ∨ ∃ j job clt proc args r, .ran j clt xid proc args ret r ∈ server.trace ∧
      server.jobs[j]? = some job ∧ job.arrived.1 = i ∧ body = r.encode)

theorem Answers.later (step : Step cfg s s') (answers : Answers (s.servers S) i pdu) : Answers (s'.servers S) i pdu := by
  rcases step_server step S with same | ⟨inner,moved,_⟩
  · rw [same]; exact answers
  · have rule := Rpcs.step_sound moved
    obtain ⟨b,size,junk,body,xid,ret,framed,four,twelve,layout,source⟩ := answers
    refine ⟨b,size,junk,body,xid,ret,framed,four,twelve,layout,source.imp_right ?_⟩
    rintro ⟨j,job,clt,proc,args,r,ran,held,arrived,encoded⟩
    obtain ⟨job',now,_,same⟩ := Rpcs.step_job_kept rule held
    exact ⟨j,job',clt,proc,args,r,Rpcs.step_remembers_trace rule ran,now,by rw [same]; exact arrived,encoded⟩

omit [DecidableEq ι] [DecidableEq σ] in
theorem replied_answers (sound : Sound cfg nonces s) (private_ : Own nonces i)
    (found : (s.servers S).jobs[j]? = some job) (ready : ServerReplies.replied job.pc) (arrived : job.arrived.1 = i) :
    Answers (s.servers S) i (frame job.b1) := by
  obtain ⟨_,_,_,_,_,nonce,_⟩ := sound.request found
  by_cases zero : job.h.cltNonce = 0
  · -- Without a nonce the reply is the dispatch's own.
    obtain ⟨size,junk,body,ret,four,twelve,layout,source⟩ := sound.unshared S j job found zero ready
    refine ⟨job.b1,size,junk,body,_,ret,rfl,four,twelve,layout,source.imp_right ?_⟩
    rintro ⟨j',proc,args,r,ran,encoded⟩
    obtain ⟨ran,same⟩ := List.mem_filter.mp ran
    have same : j' = j := of_decide_eq_true same
    exact ⟨j,job,_,proc,args,r,same ▸ ran,found,arrived,encoded⟩
  · obtain ⟨size,junk,body,ret,four,twelve,layout,source⟩ := (sound.truthful S).replies j job found ready
    refine ⟨job.b1,size,junk,body,_,ret,rfl,four,twelve,layout,source.imp_right ?_⟩
    rintro ⟨j',proc,args,r,ran,encoded⟩
    obtain ⟨other,_,held,same,_⟩ := (sound.truthful S).honest _ ran
    have mine : other.arrived.1 = i := by
      refine (sound.owner private_ held (by rw [same]; exact zero)).mp ?_
      rw [same,nonce,arrived]
    exact ⟨j',other,_,proc,args,r,ran,held,mine,encoded⟩

structure Routed (nonces : ι → UInt32) (i : ι) (s : State ι σ) : Prop where
  recorded : ∀ S n c, (s.servers S).conns n = some (some c) → n ≠ 0 ∧ (c.1 = i ↔ n = nonces i)
  dispatched : ∀ S (j : Nat) job, (s.servers S).jobs[j]? = some job → (job.conn.1 = i ↔ job.arrived.1 = i)
  replies : ∀ S c pdu, (S,c,pdu) ∈ s.replies → c.1 = i → Answers (s.servers S) i pdu

omit [DecidableEq ι] [DecidableEq σ] in
theorem initial_routed (nonces : ι → UInt32) (retrans : ι → Bool) (i : ι) :
    Routed nonces i (initial nonces retrans : State ι σ) :=
  ⟨by simp [initial,Rpcs.initial],by simp [initial,Rpcs.initial],by simp [initial]⟩

theorem step_recorded (sound : Sound cfg nonces s) (private_ : Own nonces i) (routed : Routed nonces i s)
    (step : Step cfg s s') (S : σ) (n : UInt32) (c : Conn ι) (now : (s'.servers S).conns n = some (some c)) :
    n ≠ 0 ∧ (c.1 = i ↔ n = nonces i) := by
  rcases step_server step S with same | ⟨inner,moved,_⟩
  · exact routed.recorded S n c (same ▸ now)
  · rcases RpcSystem.step_conns (Rpcs.step_sound moved) now with old | ⟨j,job,held,pc,rfl,rfl⟩
    · exact routed.recorded S n c old
    · have nonzero := (sound.target S).nonzero j job held (.inr (.inl pc))
      exact ⟨nonzero,by rw [routed.dispatched S j job held,sound.owner private_ held nonzero]⟩

theorem step_dispatched (sound : Sound cfg nonces s) (private_ : Own nonces i) (routed : Routed nonces i s)
    (step : Step cfg s s') (S : σ) (j : Nat) (job : Rpcs.Job (Conn ι)) (now : (s'.servers S).jobs[j]? = some job) :
    job.conn.1 = i ↔ job.arrived.1 = i := by
  rcases step_server step S with same | ⟨inner,moved,_⟩
  · exact routed.dispatched S j job (same ▸ now)
  · rcases Rpcs.step_jobs (Rpcs.step_sound moved) with same | ⟨c,pdu,junk,rest,waiting,same⟩ |
      ⟨k,before,after,_,held,same,moves⟩ <;> rw [same] at now
    · exact routed.dispatched S j job now
    · rcases Machine.entry_append now with old | ⟨_,rfl⟩
      · exact routed.dispatched S j job old
      · exact Iff.rfl
    · rcases Machine.entry_cases now with ⟨rfl,rfl⟩ | ⟨_,old⟩
      · rw [moves.arrived]
        rcases moves.conn with kept | ⟨_,latest⟩
        · rw [kept]; exact routed.dispatched S j before held
        · obtain ⟨nonzero,theirs⟩ := routed.recorded S _ _ latest
          rw [theirs,sound.owner private_ held nonzero]
      · exact routed.dispatched S j job old

theorem step_replies (sound : Sound cfg nonces s) (private_ : Own nonces i) (routed : Routed nonces i s)
    (step : Step cfg s s') (S : σ) (c : Conn ι) (pdu : List UInt8) (member : (S,c,pdu) ∈ s'.replies) (mine : c.1 = i) :
    Answers (s'.servers S) i pdu := by
  have old : (S,c,pdu) ∈ s.replies → Answers (s'.servers S) i pdu :=
    fun before => (routed.replies S c pdu before mine).later step
  have rule := step
  cases step with
  | client | arrive => exact old member
  | deliver => exact old (List.eraseIdx_subset member)
  | network _ subset => exact old (subset member)
  | @server inner T server _ moved =>
    rcases List.mem_append.mp member with before | new
    · exact old before
    · obtain ⟨⟨c',pdu'⟩,emitted,same⟩ := Option.map_eq_some_iff.mp (Option.mem_toList.mp new)
      cases same
      obtain ⟨j,job,held,ready,rfl,rfl⟩ := RpcSystem.emits_replied emitted
      have arrived := (routed.dispatched S j job held).mp mine
      exact (replied_answers sound private_ held ready arrived).later rule

theorem step_routed (sound : Sound cfg nonces s) (private_ : Own nonces i) (routed : Routed nonces i s)
    (step : Step cfg s s') : Routed nonces i s' :=
  ⟨step_recorded sound private_ routed step,step_dispatched sound private_ routed step,
    step_replies sound private_ routed step⟩

theorem runs_routed {ok : State ι σ → Label ι σ → Prop} (private_ : Own nonces i)
    (path : Machine.Runs (step cfg) ok (initial nonces retrans) labels s) : Routed nonces i s :=
  path.invariant_reached (initial_routed nonces retrans i)
    (fun _ _ _ _ prior routed _ taken => step_routed (runs_sound prior) private_ routed (step_sound taken))

theorem gotPdu_consumer (client : Rpcc.State) (pdu : List UInt8) :
    (Rpcc.gotPdu client pdu).callers = client.callers ∨
      ∃ (k : Nat) (ca : Rpcc.Caller), consumer client pdu = some k ∧ client.calls (opened pdu).1.xid = some k ∧
        client.callers[k]? = some ca ∧ (Rpcc.gotPdu client pdu).callers = client.callers.set k (receive ca (opened pdu)) := by
  by_cases good : (opened pdu).2.ok = true
  · obtain ⟨_,_,_,same | ⟨k,ca,pending,held,open_,same⟩⟩ := CallTable.gotPdu_table (s:=client) good
    · exact .inl same
    · exact .inr ⟨k,ca,by simp [consumer,good,pending,held,open_],pending,held,same⟩
  · refine .inl ?_
    unfold opened at good
    simp only [Rpcc.gotPdu,good]
    rfl

omit [DecidableEq ι] [DecidableEq σ] in
-- A bind that a reply makes successful has the nonce of the instance that sent
-- the reply: the request it answers had the xid of the bind, so it was a bind.
theorem bind_answer (sound : Sound cfg nonces s) (answers : Answers (s.servers S) i pdu) (fits : pdu.length ≤ maxPdu)
    {k : Nat} {ca : Rpcc.Caller} (pending : (s.clients i).calls (opened pdu).1.xid = some k)
    (held : (s.clients i).callers[k]? = some ca) (reply : Binding.BindReply (receive ca (opened pdu)) v) :
    v = (cfg S).nonce := by
  obtain ⟨b,size,junk,body,xid,ret,rfl,four,twelve,layout,source⟩ := answers
  obtain ⟨bind,r,good,rfl⟩ := reply
  have header := (RpcSystem.opened_frame four layout).1
  have returned : (opened (frame b)).1 = ⟨xid,ret⟩ := by rw [header]
  rcases source with negative | ⟨j,job,clt,proc,args,value,ran,found,arrived,encoded⟩
  · rw [Binding.result_negative rfl (by rw [receive,returned]; exact negative)] at good
    simp at good
  · obtain ⟨other,handler,again,_,asked,served,known,_,allowed,_⟩ := (sound.truthful S).honest _ ran
    cases Option.some.inj (found.symm.trans again)
    obtain ⟨n,cb,place,_,request,_⟩ := sound.request found
    rw [arrived] at place
    have same : cb.xid = (opened (frame b)).1.xid := by
      rw [← ((sound.linked i).numbered n cb place).2,← request,asked,returned]
    have binding := (sound.binding i).pending_bind pending held bind n cb place same
    rw [← request,served] at binding
    subst binding
    cases Option.some.inj ((if_pos rfl).symm.trans known)
    have parts : ret = 0 ∧ value = .int (cfg S).nonce.toInt32 := by simpa [Rpcs.rpcbind] using allowed
    obtain ⟨rfl,rfl⟩ := parts
    have ty := Binding.result_ty good
    rw [RightResult.holds_result four twelve layout encoded fits rfl rfl rfl ty (by decide)] at good
    obtain ⟨_,same⟩ := Prod.mk.inj good
    cases Option.some.inj same
    simp

def Attributed (cfg : σ → Rpcs.Config) (i : ι) (s : State ι σ) : Prop :=
  ∀ (b : Nat) (cb : Rpcc.Caller) (v : UInt32), (s.clients i).callers[b]? = some cb → Binding.BindReply cb v →
    ∃ S, v = (cfg S).nonce ∧ (i,b,S) ∈ s.answered

theorem step_answered (step : Step cfg s s') (member : entry ∈ s.answered) : entry ∈ s'.answered := by
  cases step with
  | client | server | arrive | network => exact member
  | deliver => exact List.mem_append_left _ member

theorem step_attributed (sound : Sound cfg nonces s) (routed : Routed nonces i s) (attributed : Attributed cfg i s)
    (step : Step cfg s s') : Attributed cfg i s' := by
  intro b cb v found reply
  have old : ∀ ca, (s.clients i).callers[b]? = some ca → Binding.BindReply ca v →
      ∃ S, v = (cfg S).nonce ∧ (i,b,S) ∈ s'.answered := by
    intro ca held reply
    obtain ⟨S,same,member⟩ := attributed b ca v held reply
    exact ⟨S,same,step_answered step member⟩
  rcases step_client step i with same | ⟨inner,notGot,moved⟩ | ⟨S,c,pdu,flying,fits,same,recorded⟩
  · exact old cb (same ▸ found) reply
  · have quiet : ∀ pdu, inner ≠ .gotPdu pdu := by
      rintro pdu rfl
      cases notGot
    obtain ⟨ca,held,before⟩ := Binding.step_bindReply (sound.linked i) moved quiet found reply
    exact old ca held before
  · rw [same] at found
    rcases gotPdu_consumer (s.clients i) pdu with kept | ⟨k,ca,taker,pending,held,given⟩
    · exact old cb (kept ▸ found) reply
    · rw [given] at found
      rcases Machine.entry_cases found with ⟨rfl,rfl⟩ | ⟨_,before⟩
      · have answers := routed.replies S (i,c) pdu flying rfl
        exact ⟨S,bind_answer sound answers fits pending held reply,recorded b taker⟩
      · exact old cb before reply

theorem runs_attributed {ok : State ι σ → Label ι σ → Prop} (private_ : Own nonces i)
    (path : Machine.Runs (step cfg) ok (initial nonces retrans) labels s) : Attributed cfg i s := by
  apply path.invariant_reached
  case start => simp [Attributed,initial,Rpcc.initial]
  case preserved =>
    intro _ _ _ _ prior attributed _ taken
    exact step_attributed (runs_sound prior) (runs_routed private_ prior) attributed (step_sound taken)

def BoundTo (cfg : σ → Rpcs.Config) (s : State ι σ) (i : ι) (S : σ) : Prop :=
  ∃ (b : Nat) (cb : Rpcc.Caller), (s.clients i).callers[b]? = some cb ∧ cb.pc = .bound ∧
    Binding.BindReply cb (cfg S).nonce ∧ (i,b,S) ∈ s.answered

omit [DecidableEq ι] [DecidableEq σ] in
theorem stamped_bound (distinct : ∀ S T, (cfg S).nonce = (cfg T).nonce → S = T) (nonzero : ∀ S, (cfg S).nonce ≠ 0)
    (sound : Sound cfg nonces s) (attributed : Attributed cfg i s) {k : Nat} {ca : Rpcc.Caller}
    (held : (s.clients i).callers[k]? = some ca) (other : ca.header.proc ≠ RpcConst.bind)
    (current : ca.header.srvNonce = 0 ∨ ca.header.srvNonce = (cfg S).nonce) :
    ca.header.srvNonce = (cfg S).nonce ∧ BoundTo cfg s i S := by
  obtain ⟨b,cb,place,pc,reply⟩ := (sound.binding i).others k ca held other
  obtain ⟨T,same,member⟩ := attributed b cb _ place reply
  have stamp : ca.header.srvNonce = (cfg S).nonce := current.resolve_left (by rw [same]; exact nonzero T)
  cases distinct T S (same.symm.trans stamp)
  exact ⟨stamp,b,cb,place,pc,stamp ▸ reply,member⟩

omit [DecidableEq ι] [DecidableEq σ] in
theorem ran_current (sound : Sound cfg nonces s) (found : (s.servers S).jobs[j]? = some job)
    (ran : .ran j clt xid proc args ret r ∈ (s.servers S).trace) :
    job.h.srvNonce = 0 ∨ job.h.srvNonce = (cfg S).nonce := by
  obtain ⟨_,_,_,_,_,_,ok⟩ := sound.request found
  by_cases zero : job.h.srvNonce = 0
  · exact .inl zero
  · refine .inr (Classical.byContradiction fun different => ?_)
    cases ((sound.stale S).turned j job found ok ⟨zero,different⟩).nothing _ ran rfl

theorem only_bound_requests_run (distinct : ∀ S T, (cfg S).nonce = (cfg T).nonce → S = T)
    (nonzero : ∀ S, (cfg S).nonce ≠ 0)
    (path : Machine.Runs (step cfg) Machine.free (initial nonces retrans) labels s) (S : σ) :
    (∀ j clt xid proc args ret r, .ran j clt xid proc args ret r ∈ (s.servers S).trace → proc ≠ RpcConst.bind →
      ∃ (job : Rpcs.Job (Conn ι)) (k : Nat) (ca : Rpcc.Caller), (s.servers S).jobs[j]? = some job ∧
        (s.clients job.arrived.1).callers[k]? = some ca ∧ job.pdu = frame ca.req ∧ ca.header.proc = proc ∧
        (Own nonces job.arrived.1 →
          ca.header.srvNonce = (cfg S).nonce ∧ BoundTo cfg s job.arrived.1 S)) ∧
    (∀ (j : Nat) (job : Rpcs.Job (Conn ι)), (s.servers S).jobs[j]? = some job → job.h.srvNonce ≠ 0 →
      job.h.srvNonce ≠ (cfg S).nonce →
      TurnedAway (s.servers S) j job ∧
      (job.pc = .sendOld → (s.servers S).dead job.arrived = false →
        Rpcs.emits (s.servers S) (.send j) =
          some (job.arrived,frame (Rpcs.reply job RpcConst.oldsrvFailure none))) ∧
      ∀ label t, label.job = some j → Rpcs.step (cfg S) (s.servers S) label = some t →
        t.windows = (s.servers S).windows ∧ t.conns = (s.servers S).conns ∧
          ∀ event ∈ t.trace, event ∈ (s.servers S).trace ∨ event = .sent j job.arrived) := by
  have sound := runs_sound path
  constructor
  · intro j clt xid proc args ret r ran other
    obtain ⟨job,_,found,_,_,served,_⟩ := (sound.truthful S).honest _ ran
    obtain ⟨k,ca,held,bytes,header,_⟩ := sound.request found
    have asked : ca.header.proc = proc := by rw [← header]; exact served
    have current := ran_current sound found ran
    rw [header] at current
    refine ⟨job,k,ca,found,held,bytes,asked,fun private_ => ?_⟩
    exact stamped_bound distinct nonzero sound (runs_attributed private_ path) held (asked ▸ other) current
  · intro j job found named different
    obtain ⟨_,_,_,_,_,_,ok⟩ := sound.request found
    have turned := (sound.stale S).turned j job found ok ⟨named,different⟩
    refine ⟨turned,turned.emits found,fun label t own taken => ?_⟩
    rw [← turned.conn]
    exact StaleRequests.stale_untouched (sound.stale S).screened found ok ⟨named,different⟩ own taken

end Steps

-- The first instance has nonce 9 and the second one nonce 10.
def services (second : Bool) : Rpcs.Config :=
  ⟨if second then 10 else 9,fun proc => if proc = 22 then some ⟨[.int],.int,fun _ _ _ => true⟩ else none⟩

-- A client binds to the first instance and calls it; its next call reaches the
-- second one.
def restarted : List (Label Unit Bool) :=
  [.client () (.call 1 [.int 0] .int (fun _ => 0)),.client () (.getRefconn 0 true),.client () (.send 0),
   .client () (.await 0),.server false (.accept ((),0)),.arrive false 0,.server false (.take (fun _ => 0)),
   .server false (.start 0),.server false (.window 0),.server false (.record 0),.server false (.check 0),
   .server false (.run 0 0 (.int 9)),.server false (.add 0),.server false (.choose 0),.server false (.send 0),
   .deliver 0,.client () (.wake 0),.client () (.finish 0),.client () (.ret 0),.client () (.bound 0),
   .client () (.call 22 [.int 0] .int (fun _ => 0)),.client () (.getRefconn 1 true),.client () (.send 1),
   .arrive false 0,.server false (.take (fun _ => 0)),.server false (.start 1),.server false (.window 1),
   .server false (.record 1),.server false (.check 1),.server false (.run 1 0 (.int 5)),
   .client () (.connDies 0),.client () (.call 22 [.int 0] .int (fun _ => 0)),.client () (.getRefconn 2 true),
   .client () (.send 2),.server true (.accept ((),1)),.arrive true 0,.server true (.take (fun _ => 0)),
   .server true (.start 0),.server true (.send 0)]

theorem restarted_turns_away :
    ∃ s, Machine.Runs (step services) Machine.free (initial (fun _ => 7) (fun _ => true)) restarted s ∧
      BoundTo services s () false ∧
      ∃ job, (s.servers true).jobs[0]? = some job ∧ job.h.srvNonce = 9 ∧ TurnedAway (s.servers true) 0 job := by
  have seen : (Machine.exec (step services) (initial (fun _ => 7) (fun _ => true)) restarted).map
      (fun s => (decide (.ran 1 7 2 22 [.int 0] 0 (.int 5) ∈ (s.servers false).trace),
        (s.servers true).jobs[0]?.map (fun job => job.h.srvNonce))) = some (true,some 9) := by decide +kernel
  obtain ⟨s,path,view⟩ := Machine.exec_free_observed seen
  obtain ⟨ran,stamp⟩ := Prod.mk.inj view
  obtain ⟨job,found,nine⟩ := Option.map_eq_some_iff.mp stamp
  have bound := only_bound_requests_run (by decide) (by decide) path
  obtain ⟨_,_,_,_,_,_,_,own⟩ := (bound false).1 1 7 2 22 _ _ _ (of_decide_eq_true ran) (by decide)
  have turned := (bound true).2 0 job found (by rw [nine]; decide) (by rw [nine]; decide)
  exact ⟨s,path,(own (.inr fun _ _ => rfl)).2,job,found,nine,turned.1⟩

-- Two clients that have drawn the same nonce. The first one binds and calls, and
-- the result of its call happens to be the nonce of the second instance. The
-- other one gives its first bind up; its second bind has the xid of that call
-- and is answered with the reply to it.
def misled : List (Label Bool Bool) :=
  [.client false (.call 1 [.int 0] .int (fun _ => 0)),.client false (.getRefconn 0 true),.client false (.send 0),
   .client false (.await 0),.server false (.accept (false,0)),.arrive false 0,.server false (.take (fun _ => 0)),
   .server false (.start 0),.server false (.window 0),.server false (.record 0),.server false (.check 0),
   .server false (.run 0 0 (.int 9)),.server false (.add 0),.server false (.choose 0),.server false (.send 0),
   .deliver 0,.client false (.wake 0),.client false (.finish 0),.client false (.ret 0),.client false (.bound 0),
   .client false (.call 22 [.int 0] .int (fun _ => 0)),.client false (.getRefconn 1 true),.client false (.send 1),
   .arrive false 0,.server false (.take (fun _ => 0)),.server false (.start 1),.server false (.window 1),
   .server false (.record 1),.server false (.check 1),.server false (.run 1 0 (.int 10)),.server false (.add 1),
   .client true (.call 1 [.int 0] .int (fun _ => 0)),.client true (.getRefconn 0 false),.client true (.send 0),
   .client true (.await 0),.client true (.timeout 0),.client true (.again 0),.client true (.getRefconn 0 false),
   .client true (.send 0),.client true (.deadline 0),.client true (.finish 0),.client true (.ret 0),
   .client true (.call 1 [.int 0] .int (fun _ => 0)),.client true (.getRefconn 1 true),.client true (.send 1),
   .client true (.await 1),.server false (.accept (true,0)),.arrive false 0,.server false (.take (fun _ => 0)),
   .server false (.start 2),.server false (.window 2),.server false (.record 2),.server false (.check 2),
   .server false (.send 2),.deliver 0,.client true (.wake 1),.client true (.finish 1),.client true (.ret 1),
   .client true (.bound 1),.client true (.connDies 0),.client true (.call 22 [.int 0] .int (fun _ => 0)),
   .client true (.getRefconn 2 true),.client true (.send 2),.server true (.accept (true,1)),.arrive true 0,
   .server true (.take (fun _ => 0)),.server true (.start 0),.server true (.window 0),.server true (.record 0),
   .server true (.check 0),.server true (.run 0 0 (.int 0))]

theorem misled_request_runs : (∀ S, (services S).nonce ≠ 0) ∧ (services false).nonce ≠ (services true).nonce ∧
    ∃ s, Machine.Runs (step services) Machine.free (initial (fun _ => 7) (fun _ => true)) misled s ∧
      (.ran 0 7 3 22 [.int 0] 0 (.int 0) ∈ (s.servers true).trace ∧
        (s.servers true).jobs[0]?.map (fun job => job.arrived) = some (true,1)) ∧
      ¬ BoundTo services s true true := by
  have seen : (Machine.exec (step services) (initial (fun _ => 7) (fun _ => true)) misled).map
      (fun s => (decide (.ran 0 7 3 22 [.int 0] 0 (.int 0) ∈ (s.servers true).trace),
        (s.servers true).jobs[0]?.map (fun job => job.arrived),s.answered)) =
      some (true,some (true,1),[(false,0,false),(true,1,false)]) := by decide +kernel
  obtain ⟨s,path,view⟩ := Machine.exec_free_observed seen
  obtain ⟨ran,view⟩ := Prod.mk.inj view
  obtain ⟨arrived,answered⟩ := Prod.mk.inj view
  refine ⟨by decide,by decide,s,path,⟨of_decide_eq_true ran,arrived⟩,?_⟩
  rintro ⟨b,_,_,_,_,member⟩
  rw [answered] at member
  simp at member

end YfsLab.Instances
