import YfsLab.Receive
import YfsLab.Rpcs

namespace YfsLab.Backlog
open Receive (ReadResult Errno Charbuf readpdu readBody newPdu settle offer reading Complete Sane readCb_split reading_sane)

-- The server with the receiving ends of its connections. `eof` is whether the
-- peer has closed its end; `offering` is the connection whose read_cb has read
-- and calls got_pdu next, with m_ held.
structure State (C : Type) where
  server : Rpcs.State C
  ends : C → Receive.State
  eof : C → Bool
  offering : Option C
  aborted : Bool

def initial {C : Type} : State C :=
  {server:=Rpcs.initial,ends:=fun _ => Receive.initial [] .other,eof:=fun _ => false,offering:=none,aborted:=false}

inductive Label (C : Type) where
  | arrives (c : C) (bytes : List UInt8)
  | hangsUp (c : C)
  | fails (c : C) (errno : Errno)
  | dies (c : C)
  | read (c : C) (first second : ReadResult)
  | gotPdu
  | serves (label : Rpcs.Label C)

section Steps
variable {C : Type} [DecidableEq C]

def put (s : State C) (c : C) (e : Receive.State) : State C :=
  {s with
    ends:=fun other => if other = c then e else s.ends other
    server:={s.server with dead:=fun other => if other = c then e.dead else s.server.dead other}}

-- select reports the connection: there is something to read, or the end.
def readable (s : State C) (c : C) : Prop :=
  c ∈ s.server.accepted ∧ (s.ends c).watched = true ∧ ((s.ends c).stream ≠ [] ∨ s.eof c = true)

instance (s : State C) (c : C) : Decidable (readable s c) := inferInstanceAs (Decidable (_ ∧ _))

def room (s : State C) : Prop := s.server.queue.length < Rpcs.queueLimit

instance (s : State C) : Decidable (room s) := inferInstanceAs (Decidable (_ < _))

-- read_cb returns at once on a dead connection, and offers what it holds else.
def afterRead (s : State C) (c : C) (e : Receive.State) : State C :=
  {put s c e with offering:=if (s.ends c).dead ∨ e.aborted then none else some c,aborted:=e.aborted}

-- The rest of read_cb: a PDU that is not taken stays in the connection.
def gotPdu (s : State C) (c : C) : State C :=
  let s' := {put s c (offer (s.ends c) (room s)) with offering:=none}
  match (s.ends c).rpdu.buf with
  | none => s'
  | some b =>
    if (s.ends c).rpdu.sz = (s.ends c).rpdu.solong then {s' with server:=Rpcs.gotPdu s'.server c b} else s'

-- The accept loop, the collector and the dispatch threads go on as they do
-- without the connections' ends.
def serves (cfg : Rpcs.Config) (s : State C) : Rpcs.Label C → Option (State C)
  | .gotPdu _ _ | .dies _ => none
  | label => (Rpcs.step cfg s.server label).map fun server => {s with server:=server}

def step (cfg : Rpcs.Config) (s : State C) (label : Label C) : Option (State C) :=
  if s.aborted ∨ s.server.crashed then none else
  match label with
  | .arrives c bytes =>
    if s.eof c then none else some (put s c {s.ends c with stream:=(s.ends c).stream ++ bytes})
  | .hangsUp c => some {s with eof:=fun other => if other = c then true else s.eof other}
  | .fails c errno => some (put s c {s.ends c with errno:=errno})
  | .dies c => some (put s c {s.ends c with dead:=true})
  | .read c first second =>
    if s.offering = none ∧ readable s c then
      (reading (s.ends c) first second).map (afterRead s c)
    else none
  | .gotPdu => s.offering.map (gotPdu s)
  | .serves label => serves cfg s label

end Steps

variable {C : Type} [DecidableEq C] {cfg : Rpcs.Config} {s s' : State C} {label : Label C} {c : C}

-- A request that no callback will ever offer again, with nothing in its way.
def Stranded (s : State C) : Prop :=
  s.offering = none ∧ Rpcs.active s.server = 0 ∧ room s ∧ ∃ c, Complete (s.ends c) ∧ (s.ends c).stream = []

-- A refused PDU has bytes behind it in the socket.
def Followed (s : State C) : Label C → Prop
  | .gotPdu => ∀ c, s.offering = some c → Complete (s.ends c) → room s ∨ (s.ends c).stream ≠ []
  | _ => True

-- The bytes behind a refused PDU are what brings its connection back.
structure Invariant (s : State C) : Prop where
  sane : ∀ c, Sane (s.ends c)
  running : ∀ c, (s.ends c).aborted = true → s.aborted = true
  followed : ∀ c, Complete (s.ends c) → s.offering = some c ∨ (s.ends c).stream ≠ []

omit [DecidableEq C] in
theorem initial_invariant : Invariant (initial : State C) :=
  ⟨fun _ => .inl rfl,by simp [initial,Receive.initial],by simp [initial,Receive.initial,Complete,Charbuf.null]⟩

theorem put_other (different : other ≠ c) (e : Receive.State) : (put s c e).ends other = s.ends other := by
  simp [put,different]

theorem put_self (e : Receive.State) : (put s c e).ends c = e := by simp [put]

theorem Invariant.put (valid : Invariant s) (e : Receive.State) (ends : s'.ends = (put s c e).ends) (sane : Sane e)
    (running : e.aborted = true → s'.aborted = true) (aborted : s.aborted = true → s'.aborted = true)
    (others : ∀ other, other ≠ c → s.offering = some other → s'.offering = some other)
    (followed : Complete e → s'.offering = some c ∨ e.stream ≠ []) : Invariant s' := by
  constructor
  case sane =>
    intro other
    rw [ends]
    by_cases same : other = c
    · rw [same,put_self]; exact sane
    · rw [put_other same]; exact valid.sane other
  case running =>
    intro other stopped
    rw [ends] at stopped
    by_cases same : other = c
    · rw [same,put_self] at stopped; exact running stopped
    · rw [put_other same] at stopped; exact aborted (valid.running other stopped)
  case followed =>
    intro other complete
    rw [ends] at complete ⊢
    by_cases same : other = c
    · rw [same,put_self] at complete ⊢; exact followed complete
    · rw [put_other same] at complete ⊢
      exact (valid.followed other complete).imp_left (others other same)

theorem gotPdu_spec (s : State C) (c : C) :
    (gotPdu s c).ends = (put s c (offer (s.ends c) (room s))).ends ∧ (gotPdu s c).offering = none ∧
      (gotPdu s c).aborted = s.aborted := by
  unfold gotPdu
  dsimp only
  split
  · exact ⟨rfl,rfl,rfl⟩
  · split
    · exact ⟨rfl,rfl,rfl⟩
    · exact ⟨rfl,rfl,rfl⟩

theorem offer_spec (e : Receive.State) (accepts : Bool) :
    offer e accepts = e ∧ (Complete e → accepts = false) ∨
      (offer e accepts).rpdu = .null ∧ (offer e accepts).aborted = e.aborted := by
  unfold offer
  split
  · rename_i missing; exact .inl ⟨rfl,by simp [Complete,missing]⟩
  · split
    · exact .inr ⟨rfl,rfl⟩
    · rename_i kept
      refine .inl ⟨rfl,fun complete => ?_⟩
      simpa [complete.2] using kept

theorem gotPdu_invariant (valid : Invariant s) (offering : s.offering = some c) (followed : Followed s .gotPdu) :
    Invariant (gotPdu s c) := by
  obtain ⟨ends,done,same⟩ := gotPdu_spec s c
  have mine : ∀ other, other ≠ c → s.offering = some other → (gotPdu s c).offering = some other := by
    intro other different here
    exact absurd (Option.some.inj (here.symm.trans offering)) different
  rcases offer_spec (s.ends c) (room s) with ⟨kept,full⟩ | ⟨taken,quiet⟩
  · apply valid.put (s.ends c) (kept ▸ ends) (valid.sane c) (same ▸ valid.running c) (same ▸ id) mine
    intro complete
    rcases followed c offering complete with space | more
    · simpa [space] using full complete
    · exact .inr more
  · apply valid.put _ ends (.inl (by rw [taken]; rfl)) (by rw [quiet,same]; exact valid.running c) (same ▸ id) mine
    intro complete
    simp [Complete,taken,Charbuf.null] at complete

omit [DecidableEq C] in
theorem Invariant.going (valid : Invariant s) (running : ¬ (s.aborted = true ∨ s.server.crashed = true)) (c : C) :
    (s.ends c).aborted = false := by
  by_contra stopped
  exact running (.inl (valid.running c (by simpa using stopped)))

theorem read_inv (taken : step cfg s (.read c first second) = some s') :
    ¬ (s.aborted = true ∨ s.server.crashed = true) ∧ s.offering = none ∧
      ∃ e, reading (s.ends c) first second = some e ∧ s' = afterRead s c e := by
  simp only [step] at taken
  split at taken
  · cases taken
  · rename_i running
    split at taken
    · rename_i free
      obtain ⟨e,read,same⟩ := Option.map_eq_some_iff.mp taken
      exact ⟨running,free.1,e,read,same.symm⟩
    · cases taken

-- The two steps of a callback are read_cb of the connection by itself.
theorem readCb_simulated (valid : Invariant s) (taken : step cfg s (.read c first second) = some s')
    (offering : s'.offering = some c) :
    Receive.step (s.ends c) (.readCb first second (room s')) = some ((gotPdu s' c).ends c) := by
  obtain ⟨running,_,e,read,rfl⟩ := read_inv taken
  have quiet : ¬ ((s.ends c).dead = true ∨ e.aborted = true) := by
    intro either
    simp [afterRead,either] at offering
  have here : (afterRead s c e).ends c = e := put_self e
  rw [(gotPdu_spec _ c).1,put_self,here,Receive.step,valid.going running c,readCb_split (valid.going running c),read]
  simp [quiet]

theorem read_invariant (valid : Invariant s) (taken : step cfg s (.read c first second) = some s') : Invariant s' := by
  obtain ⟨running,free,e,read,rfl⟩ := read_inv taken
  have nobody : ∀ other, s.offering ≠ some other := by simp [free]
  obtain ⟨sane,stopped⟩ := reading_sane (valid.sane c) (valid.going running c) read
  refine valid.put e rfl sane id (fun aborted => absurd (.inl aborted) running) ?_ fun complete => ?_
  · exact fun other _ offering => absurd offering (nobody other)
  · by_cases dead : (s.ends c).dead = true
    · rw [reading,if_pos dead] at read
      cases Option.some.inj read
      exact .inr ((valid.followed c complete).resolve_left (nobody c))
    · have quiet : ¬ e.aborted = true := fun aborted => stopped aborted complete
      exact .inl (by simp [afterRead,dead,quiet])

theorem serves_invariant {label : Rpcs.Label C} (valid : Invariant s) (taken : serves cfg s label = some s') :
    Invariant s' := by
  unfold serves at taken
  split at taken
  · cases taken
  · cases taken
  · obtain ⟨server,_,rfl⟩ := Option.map_eq_some_iff.mp taken
    exact ⟨valid.sane,valid.running,valid.followed⟩

theorem step_invariant (valid : Invariant s) (followed : Followed s label) (taken : step cfg s label = some s') :
    Invariant s' := by
  cases label with
  | read c first second => exact read_invariant valid taken
  | arrives c bytes =>
    simp only [step] at taken
    split at taken
    · cases taken
    · split at taken
      · cases taken
      · cases Option.some.inj taken
        refine valid.put _ rfl (valid.sane c) (valid.running c) id (fun _ _ => id) fun complete => ?_
        exact (valid.followed c complete).imp_right fun more => by simp [more]
  | hangsUp c =>
    simp only [step,Option.ite_none_left_eq_some] at taken
    cases Option.some.inj taken.2
    exact ⟨valid.sane,valid.running,valid.followed⟩
  | fails c errno =>
    simp only [step,Option.ite_none_left_eq_some] at taken
    cases Option.some.inj taken.2
    exact valid.put _ rfl (valid.sane c) (valid.running c) id (fun _ _ => id) (valid.followed c)
  | dies c =>
    simp only [step,Option.ite_none_left_eq_some] at taken
    cases Option.some.inj taken.2
    exact valid.put _ rfl (valid.sane c) (valid.running c) id (fun _ _ => id) (valid.followed c)
  | gotPdu =>
    simp only [step,Option.ite_none_left_eq_some] at taken
    obtain ⟨c,offering,rfl⟩ := Option.map_eq_some_iff.mp taken.2
    exact gotPdu_invariant valid offering followed
  | serves label =>
    simp only [step,Option.ite_none_left_eq_some] at taken
    exact serves_invariant valid taken.2

theorem no_request_stranded (path : Machine.Runs (step cfg) Followed (initial : State C) labels s) : ¬ Stranded s := by
  have valid : Invariant s := by
    apply path.invariant initial_invariant
    intro before label after valid followed taken
    exact step_invariant valid followed taken
  intro stranded
  obtain ⟨quiet,_,_,c,complete,empty⟩ := stranded
  rcases valid.followed c complete with offering | more
  · rw [quiet] at offering; cases offering
  · exact more empty

section Overload

-- A request for a procedure that is not registered: the dispatch of it ends at
-- once.
def server : Rpcs.Config := ⟨9,fun _ => none⟩

def request : List UInt8 := [0,0,0,24,0,0,0,1,0,0,0,99,0,0,0,7,0,0,0,0,0,0,0,0]

-- Connection 1 after n of its requests, and while it reads the next one with
-- more behind it.
def between (n : Nat) : Receive.State := {Receive.initial [] .other with accepted:=List.replicate n request}
def arriving (n : Nat) (more : List UInt8) : Receive.State := {between n with stream:=request ++ more}
def holding (n : Nat) (more : List UInt8) : Receive.State := {between n with stream:=more,rpdu:=⟨some request,28,24,24⟩}

theorem reading_request (n : Nat) (more : List UInt8) :
    reading (arriving n more) (.data 4) (.data 20) = some (holding n more) := by
  rfl

-- Where the server stands: n requests of connection 1 are queued and no
-- dispatch is running.
structure Stands (end_ : Receive.State) (offering : Option Nat) (n : Nat) (s : State Nat) : Prop where
  end_ : s.ends 1 = end_
  offering : s.offering = offering
  queue : s.server.queue = List.replicate n (1,request)
  jobs : ∀ job ∈ s.server.jobs, job.pc = .finished
  accepted : s.server.accepted = [1]
  crashed : s.server.crashed = false
  aborted : s.aborted = false
  eof : s.eof 1 = false

variable {s : State Nat} {n queued : Nat}

theorem Stands.idle (stands : Stands e none queued s) : Rpcs.active s.server = 0 := by
  apply List.countP_eq_zero.mpr
  intro job member
  simp [stands.jobs job member]

theorem Stands.reads (stands : Stands (between n) none queued s) (more : List UInt8) :
    ∃ labels s', Machine.Runs (step server) Followed s labels s' ∧ Stands (holding n more) (some 1) queued s' := by
  obtain ⟨end_,offering,queue,jobs,accepted,crashed,aborted,eof⟩ := stands
  have first : step server s (.arrives 1 (request ++ more)) = some (put s 1 (arriving n more)) := by
    simp [step,aborted,crashed,eof,end_,arriving,between,Receive.initial]
  have ready : readable (put s 1 (arriving n more)) 1 := by
    refine ⟨accepted ▸ List.mem_singleton_self 1,?_,.inl ?_⟩
    · rw [put_self]; rfl
    · rw [put_self]; simp [arriving,request]
  have quiet : ¬ ((arriving n more).dead = true ∨ (holding n more).aborted = true) := by
    simp [arriving,holding,between,Receive.initial]
  have second : step server (put s 1 (arriving n more)) (.read 1 (.data 4) (.data 20)) =
      some {put (put s 1 (arriving n more)) 1 (holding n more) with offering:=some 1,aborted:=false} := by
    unfold step
    rw [if_neg (by simp [put,aborted,crashed])]
    dsimp only
    rw [if_pos ⟨offering,ready⟩,put_self,reading_request,Option.map_some,afterRead,put_self,if_neg quiet]
    rfl
  refine ⟨_,_,(Machine.Runs.single ?_ first).append (.single ?_ second),?_⟩
  iterate 2 trivial
  exact ⟨by simp [put],rfl,queue,jobs,accepted,crashed,rfl,eof⟩

theorem offer_accepted (n : Nat) : offer (holding n []) true = between (n+1) := by
  show {between n with accepted:=List.replicate n request ++ [request]} = between (n+1)
  rw [← List.replicate_succ']
  rfl

theorem gotPdu_holding (end_ : s.ends 1 = holding n more) :
    gotPdu s 1 = {put s 1 (offer (holding n more) (room s)) with
      offering:=none
      server:=Rpcs.gotPdu (put s 1 (offer (holding n more) (room s))).server 1 request} := by
  simp [gotPdu,end_,holding]

theorem Stands.enqueues (stands : Stands (holding n []) (some 1) queued s) (space : queued < Rpcs.queueLimit) :
    ∃ s', Machine.Runs (step server) Followed s [.gotPdu] s' ∧ Stands (between (n+1)) none (queued+1) s' := by
  obtain ⟨end_,offering,queue,jobs,accepted,crashed,aborted,eof⟩ := stands
  have here : room s := by simpa [room,queue] using space
  have taken : step server s .gotPdu = some (gotPdu s 1) := by simp [step,aborted,crashed,offering]
  refine ⟨_,.single (fun _ _ _ => .inl here) taken,?_⟩
  have space : (put s 1 (offer (holding n []) (room s))).server.queue.length < Rpcs.queueLimit := here
  rw [gotPdu_holding end_,Rpcs.gotPdu,if_pos space]
  refine ⟨?_,rfl,?_,jobs,accepted,crashed,aborted,eof⟩
  · simp [put,here,offer_accepted]
  · simp [put,queue,List.replicate_succ']

theorem Stands.refuses {ok : State Nat → Label Nat → Prop} (stands : Stands (holding n more) (some 1) Rpcs.queueLimit s)
    (allowed : ok s .gotPdu) :
    ∃ s', Machine.Runs (step server) ok s [.gotPdu] s' ∧ Stands (holding n more) none Rpcs.queueLimit s' := by
  obtain ⟨end_,offering,queue,jobs,accepted,crashed,aborted,eof⟩ := stands
  have full : ¬ room s := by simp [room,queue]
  have taken : step server s .gotPdu = some (gotPdu s 1) := by simp [step,aborted,crashed,offering]
  refine ⟨_,.single allowed taken,?_⟩
  have none_ : ¬ (put s 1 (offer (holding n more) (room s))).server.queue.length < Rpcs.queueLimit := full
  rw [gotPdu_holding end_,Rpcs.gotPdu,if_neg none_]
  refine ⟨?_,rfl,queue,jobs,accepted,crashed,aborted,eof⟩
  simp [put,full,holding,offer]

def asked : Rpcs.Job Nat := ⟨1,1,request,fun _ => 0,[],.start⟩

theorem asked_leaves (s : Rpcs.State Nat) (j : Nat) : Rpcs.start server s j asked =
    Rpcs.setJob {s with refno:=Rpcs.bump s.refno 1 (-1)} j {asked with pc:=.finished} := by
  have decoded : asked.req.ok = true ∧ asked.h.srvNonce = 0 ∧ server.procs asked.h.proc = none := by
    refine ⟨by decide +kernel,by decide +kernel,?_⟩
    have proc : asked.h.proc ≠ RpcConst.bind := by decide +kernel
    rw [Rpcs.Config.procs,if_neg proc]
    rfl
  rw [Rpcs.start,if_neg (by simp [decoded.1]),if_neg (by simp [decoded.2.1]),if_pos (by simp [decoded.2.2])]
  rfl

theorem Stands.dispatches (stands : Stands e none (queued+1) s) :
    ∃ labels s', Machine.Runs (step server) Followed s labels s' ∧ Stands e none queued s' := by
  have idle := stands.idle
  obtain ⟨end_,offering,queue,jobs,accepted,crashed,aborted,eof⟩ := stands
  let taken : Rpcs.State Nat := {s.server with queue:=List.replicate queued (1,request),jobs:=s.server.jobs ++ [asked]}
  have first : step server s (.serves (.take fun _ => 0)) = some {s with server:=taken} := by
    simp [step,serves,Rpcs.step,aborted,crashed,queue,List.replicate_succ,idle,Rpcs.poolSize,taken,asked]
  have second : step server {s with server:=taken} (.serves (.start s.server.jobs.length)) =
      some {s with server:=Rpcs.start server taken s.server.jobs.length asked} := by
    simp [step,serves,Rpcs.step,Rpcs.Label.job,Rpcs.stepJob,aborted,crashed,taken,asked]
  rw [asked_leaves] at second
  refine ⟨_,_,(Machine.Runs.single ?_ first).append (.single ?_ second),?_⟩
  iterate 2 trivial
  refine ⟨end_,offering,rfl,?_,accepted,crashed,aborted,eof⟩
  intro job member
  simp only [Rpcs.setJob,taken,List.set_append_right _ _ (Nat.le_refl _),List.mem_append] at member
  rcases member with old | new
  · exact jobs job old
  · have same : job = {asked with pc:=.finished} := by simpa using new
    rw [same]

theorem Stands.fills (stands : Stands (between 0) none 0 s) (limit : n ≤ Rpcs.queueLimit) :
    ∃ labels s', Machine.Runs (step server) Followed s labels s' ∧ Stands (between n) none n s' := by
  induction n with
  | zero => exact ⟨[],s,.nil,stands⟩
  | succ n ih =>
    obtain ⟨labels,mid,path,filled⟩ := ih (by omega)
    obtain ⟨more,offered,reads,offers⟩ := filled.reads []
    obtain ⟨next,takes,higher⟩ := offers.enqueues limit
    exact ⟨_,next,(path.append reads).append takes,higher⟩

theorem Stands.drains (stands : Stands e none queued s) :
    ∃ labels s', Machine.Runs (step server) Followed s labels s' ∧ Stands e none 0 s' := by
  induction queued generalizing s with
  | zero => exact ⟨[],s,.nil,stands⟩
  | succ queued ih =>
    obtain ⟨first,mid,path,fewer⟩ := stands.dispatches
    obtain ⟨more,last,rest,none_⟩ := ih fewer
    exact ⟨first ++ more,last,path.append rest,none_⟩

theorem overloaded (more : List UInt8) : ∃ labels s, Machine.Runs (step server) Followed (initial : State Nat) labels s ∧
    Stands (holding Rpcs.queueLimit more) (some 1) Rpcs.queueLimit s := by
  have accepts : ∃ s, Machine.Runs (step server) Followed (initial : State Nat) [.serves (.accept 1)] s ∧
      Stands (between 0) none 0 s := by
    refine ⟨_,.single trivial rfl,rfl,rfl,rfl,?_,rfl,rfl,rfl,rfl⟩
    simp [initial,Rpcs.initial]
  obtain ⟨s,accept,stands⟩ := accepts
  obtain ⟨labels,full,fill,filled⟩ := stands.fills (Nat.le_refl _)
  obtain ⟨last,offered,reads,offers⟩ := filled.reads more
  exact ⟨_,offered,(accept.append fill).append reads,offers⟩

-- A refused request with a second one behind it is still there when the queue is
-- empty again, and its connection is readable.
theorem followed_not_stranded : ∃ labels s, Machine.Runs (step server) Followed (initial : State Nat) labels s ∧
    Complete (s.ends 1) ∧ Rpcs.active s.server = 0 ∧ room s ∧ ¬ Stranded s := by
  obtain ⟨labels,s,path,offers⟩ := overloaded request
  have behind : Followed s .gotPdu := by
    intro c offering _
    cases Option.some.inj (offers.offering.symm.trans offering)
    rw [offers.end_]
    exact .inr (by simp [holding,request])
  obtain ⟨refused,refuse,stands⟩ := offers.refuses behind
  obtain ⟨more,last,drain,done⟩ := stands.drains
  have whole := (path.append refuse).append drain
  refine ⟨_,last,whole,?_,done.idle,?_,no_request_stranded whole⟩
  · rw [done.end_]; exact ⟨rfl,rfl⟩
  · simp [room,done.queue,Rpcs.queueLimit,Rpcs.poolSize]

-- With nothing behind it, it stays in its connection, which is alive.
theorem refused_request_stranded : ∃ labels s, Machine.Runs (step server) Machine.free (initial : State Nat) labels s ∧
    (s.ends 1).dead = false ∧ s.eof 1 = false ∧ Stranded s := by
  obtain ⟨labels,s,path,offers⟩ := overloaded []
  have refuses : ∃ s', Machine.Runs (step server) Machine.free s [.gotPdu] s' ∧
      Stands (holding Rpcs.queueLimit []) none Rpcs.queueLimit s' := offers.refuses trivial
  obtain ⟨refused,refuse,stands⟩ := refuses
  obtain ⟨more,last,drain,done⟩ := stands.drains
  refine ⟨_,last,(path.unrestricted.append refuse).append drain.unrestricted,?_,done.eof,done.offering,done.idle,?_,1,?_,?_⟩
  · rw [done.end_]; rfl
  · simp [room,done.queue,Rpcs.queueLimit,Rpcs.poolSize]
  · rw [done.end_]; exact ⟨rfl,rfl⟩
  · rw [done.end_]; rfl

end Overload
end YfsLab.Backlog
