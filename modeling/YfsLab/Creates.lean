import YfsLab.Lib.Runs
import YfsLab.YfsClient

namespace YfsLab.Creates
open YfsClient ExtentProtocol

-- The points at which a call of createfile waits: before the get of lookup,
-- the get of readdir, the call of rand() and the two puts.
inductive Phase where
  | looking (id : UInt64)
  | reading (id : UInt64)
  | drawing (fl : Filelist)
  | writing (fl : Filelist) (id : UInt64)
  | filing (id : UInt64)
  | returned (status : Status) (id : UInt64)
  deriving DecidableEq, Repr

def Phase.query (pId : UInt64) (name : List UInt8) : Phase → Option Query
  | .looking _ | .reading _ => some (.get pId)
  | .drawing _ => some .rand
  | .writing fl id => some (.put pId (serialize (fl ++ [(id,name)])))
  | .filing id => some (.put id [])
  | .returned _ _ => none

section Resume
variable (junk : Nat → UInt8)

def looked (name : List UInt8) (id : UInt64) (answer : Option (List UInt8)) : Phase :=
  match lookupIn junk name id answer with
  | (.OK,id) => .returned .OK id
  | (.NOENT,id) => .reading id
  | (_,id) => .returned .IOERR id

def opened (id : UInt64) (answer : Option (List UInt8)) : Phase :=
  match readdirOf junk [] answer with
  | (.OK,fl) => .drawing fl
  | _ => .returned .IOERR id

def Phase.resume (name : List UInt8) : Phase → (q : Query) → Answer q → Phase
  | .looking id,.get _,answer => looked junk name id answer
  | .reading id,.get _,answer => opened junk id answer
  | .drawing fl,.rand,rand => .writing fl (newInum 1 rand)
  | .writing _ id,.put _ _,true => .filing id
  | .writing _ id,.put _ _,false => .returned .IOERR id
  | .filing id,.put _ _,true => .returned .OK id
  | .filing id,.put _ _,false => .returned .IOERR id
  | phase,_,_ => phase

-- The rest of createfile from each point on.
def Phase.program (pId : UInt64) (name : List UInt8) : Phase → Client (Status × UInt64)
  | .looking id => createfile junk pId name id
  | .reading id => do
    let (r,fl) ← readdir junk pId []
    match r with
    | .OK => writeEntry pId name fl (newInum 1 (← rand))
    | _ => return (.IOERR,id)
  | .drawing fl => do writeEntry pId name fl (newInum 1 (← rand))
  | .writing fl id => writeEntry pId name fl id
  | .filing id => writeFile id
  | .returned status id => return (status,id)

end Resume

-- The points are those of the program: it asks what the point says, and goes
-- on at the point that the answer leads to.
theorem program_eq (junk : Nat → UInt8) (pId : UInt64) (name : List UInt8) (phase : Phase) :
    phase.program junk pId name =
      match phase.query pId name with
      | none => phase.program junk pId name
      | some q => .ask q fun answer => (phase.resume junk name q answer).program junk pId name := by
  cases phase with
  | looking id =>
    refine congrArg (Program.ask (Query.get pId)) (funext fun answer => ?_)
    show _ = (looked junk name id answer).program junk pId name
    unfold looked
    simp only [Program.bind,Program.pure_eq_done]
    generalize lookupIn junk name id answer = found
    obtain ⟨status,found⟩ := found
    cases status <;> rfl
  | reading id =>
    refine congrArg (Program.ask (Query.get pId)) (funext fun answer => ?_)
    show _ = (opened junk id answer).program junk pId name
    unfold opened
    simp only [Program.bind,Program.pure_eq_done]
    generalize readdirOf junk [] answer = found
    obtain ⟨status,fl⟩ := found
    cases status <;> rfl
  | drawing fl => rfl
  | writing fl id =>
    refine congrArg (Program.ask _) (funext fun answer => ?_)
    cases answer <;> rfl
  | filing id =>
    refine congrArg (Program.ask _) (funext fun answer => ?_)
    cases answer <;> rfl
  | returned status id => rfl

structure Call where
  pId : UInt64
  name : List UInt8
  phase : Phase
  deriving DecidableEq, Repr

-- The clients share the server; it handles one RPC at a time.
structure State where
  server : ExtentServer
  calls : List Call

def initial : State := ⟨.initial,[]⟩

-- An RPC succeeds, or fails before or after it has taken effect.
inductive Delivery where
  | delivered | requestLost | replyLost
  deriving DecidableEq, Repr

-- The PDU of a put: a larger one is never accepted.
def Fits (id : UInt64) (buf : List UInt8) : Prop :=
  rpcHeaderSz + (encodes [.ulonglong id,.string buf]).length ≤ maxPdu

instance (id : UInt64) (buf : List UInt8) : Decidable (Fits id buf) := inferInstanceAs (Decidable (_ ≤ _))

def respond (server : ExtentServer) : (q : Query) → Delivery → Option (Answer q × ExtentServer)
  | .get id,.delivered => some (server.get id,server)
  | .get _,_ => some (none,server)
  | .put _ _,.requestLost => some (false,server)
  | .put id buf,.delivered => if Fits id buf then some (true,server.put id buf) else none
  | .put id buf,.replyLost => if Fits id buf then some (false,server.put id buf) else none
  | .rand,_ => none

inductive Label where
  | create (pId : UInt64) (name : List UInt8) (id : UInt64)
  | rpc (k : Nat) (delivery : Delivery)
  | draw (k : Nat) (rand : Rand)
  deriving DecidableEq, Repr

def State.goes (s : State) (k : Nat) (call : Call) (phase : Phase) : State :=
  {s with calls:=s.calls.set k {call with phase:=phase}}

section Machine
variable (junk : Nat → UInt8)

def step (s : State) : Label → Option State
  | .create pId name id => some {s with calls:=s.calls ++ [⟨pId,name,.looking id⟩]}
  | .rpc k delivery =>
    (s.calls[k]?).bind fun call =>
    (call.phase.query call.pId call.name).bind fun q =>
    (respond s.server q delivery).map fun (answer,server) =>
      State.goes {s with server:=server} k call (call.phase.resume junk call.name q answer)
  | .draw k rand =>
    (s.calls[k]?).bind fun call =>
    if call.phase.query call.pId call.name = some .rand then
      some (s.goes k call (call.phase.resume junk call.name .rand rand))
    else none

inductive Moved (s : State) : Label → State → Prop where
  | create : Moved s (.create pId name inum) {s with calls:=s.calls ++ [⟨pId,name,.looking inum⟩]}
  | look (held : s.calls[k]? = some call) (at_ : call.phase = .looking inum)
      (answered : answer = s.server.get call.pId ∨ answer = none) :
      Moved s (.rpc k delivery) (s.goes k call (looked junk call.name inum answer))
  | read (held : s.calls[k]? = some call) (at_ : call.phase = .reading inum)
      (answered : answer = s.server.get call.pId ∨ answer = none) :
      Moved s (.rpc k delivery) (s.goes k call (opened junk inum answer))
  | draw (held : s.calls[k]? = some call) (at_ : call.phase = .drawing fl) :
      Moved s (.draw k drawn) (s.goes k call (.writing fl (newInum 1 drawn)))
  | write (held : s.calls[k]? = some call) (at_ : call.phase = .writing fl inum)
      (effective : delivery ≠ .requestLost) (fits : Fits call.pId (serialize (fl ++ [(inum,call.name)]))) :
      Moved s (.rpc k delivery) (State.goes {s with server:=s.server.put call.pId (serialize (fl ++ [(inum,call.name)]))}
        k call (if delivery = .delivered then .filing inum else .returned .IOERR inum))
  | unwritten (held : s.calls[k]? = some call) (at_ : call.phase = .writing fl inum) :
      Moved s (.rpc k .requestLost) (s.goes k call (.returned .IOERR inum))
  | file (held : s.calls[k]? = some call) (at_ : call.phase = .filing inum) (effective : delivery ≠ .requestLost) :
      Moved s (.rpc k delivery) (State.goes {s with server:=s.server.put inum []} k call
        (.returned (if delivery = .delivered then .OK else .IOERR) inum))
  | unfiled (held : s.calls[k]? = some call) (at_ : call.phase = .filing inum) :
      Moved s (.rpc k .requestLost) (s.goes k call (.returned .IOERR inum))

end Machine

variable {junk : Nat → UInt8} {s s' : State} {label : Label}

theorem respond_get {server server' : ExtentServer} {answer : Option (List UInt8)}
    (responded : respond server (.get eid) delivery = some (answer,server')) :
    server' = server ∧ (answer = server.get eid ∨ answer = none) := by
  cases delivery <;> cases Option.some.inj responded
  · exact ⟨rfl,.inl rfl⟩
  · exact ⟨rfl,.inr rfl⟩
  · exact ⟨rfl,.inr rfl⟩

theorem respond_put {server server' : ExtentServer} {answer : Bool}
    (responded : respond server (.put eid buf) delivery = some (answer,server')) :
    (delivery = .requestLost ∧ answer = false ∧ server' = server) ∨
      (delivery ≠ .requestLost ∧ answer = decide (delivery = .delivered) ∧ Fits eid buf ∧
        server' = server.put eid buf) := by
  unfold respond at responded
  cases delivery with
  | requestLost =>
    cases Option.some.inj responded
    exact .inl ⟨rfl,rfl,rfl⟩
  | delivered =>
    obtain ⟨fits,same⟩ := Option.ite_none_right_eq_some.mp responded
    cases Option.some.inj same
    exact .inr ⟨by decide,rfl,fits,rfl⟩
  | replyLost =>
    obtain ⟨fits,same⟩ := Option.ite_none_right_eq_some.mp responded
    cases Option.some.inj same
    exact .inr ⟨by decide,rfl,fits,rfl⟩

theorem step_moved (taken : step junk s label = some s') : Moved junk s label s' := by
  cases label with
  | create pId name id =>
    cases Option.some.inj taken
    exact .create
  | rpc k delivery =>
    obtain ⟨call,held,taken⟩ := Option.bind_eq_some_iff.mp taken
    obtain ⟨q,asked,taken⟩ := Option.bind_eq_some_iff.mp taken
    obtain ⟨⟨answer,server⟩,responded,rfl⟩ := Option.map_eq_some_iff.mp taken
    cases at_ : call.phase with
    | looking id =>
      rw [at_] at asked
      cases Option.some.inj asked
      obtain ⟨rfl,answered⟩ := respond_get responded
      exact .look held at_ answered
    | reading id =>
      rw [at_] at asked
      cases Option.some.inj asked
      obtain ⟨rfl,answered⟩ := respond_get responded
      exact .read held at_ answered
    | drawing fl =>
      rw [at_] at asked
      cases Option.some.inj asked
      cases responded
    | writing fl id =>
      rw [at_] at asked
      cases Option.some.inj asked
      rcases respond_put responded with ⟨rfl,rfl,rfl⟩ | ⟨effective,rfl,fits,rfl⟩
      · exact .unwritten held at_
      · have moved : Moved junk s _ _ := .write held at_ effective fits
        cases delivery <;> exact moved
    | filing id =>
      rw [at_] at asked
      cases Option.some.inj asked
      rcases respond_put responded with ⟨rfl,rfl,rfl⟩ | ⟨effective,rfl,fits,rfl⟩
      · exact .unfiled held at_
      · have moved : Moved junk s _ _ := .file held at_ effective
        cases delivery <;> exact moved
    | returned status id =>
      rw [at_] at asked
      cases asked
  | draw k rand =>
    obtain ⟨call,held,taken⟩ := Option.bind_eq_some_iff.mp taken
    obtain ⟨asked,same⟩ := Option.ite_none_right_eq_some.mp taken
    cases at_ : call.phase with
    | drawing fl =>
      rw [at_] at same
      cases Option.some.inj same
      exact .draw held at_
    | looking id => simp [at_,Phase.query] at asked
    | reading id => simp [at_,Phase.query] at asked
    | writing fl id => simp [at_,Phase.query] at asked
    | filing id => simp [at_,Phase.query] at asked
    | returned status id => simp [at_,Phase.query] at asked

theorem Moved.calls (moved : Moved junk s label s') :
    (∃ pId name id, s'.calls = s.calls ++ [⟨pId,name,.looking id⟩]) ∨
      ∃ (k : Nat) (call : Call) (phase : Phase), s.calls[k]? = some call ∧
        (∀ status id, call.phase ≠ .returned status id) ∧ s'.calls = s.calls.set k {call with phase:=phase} := by
  cases moved with
  | create => exact .inl ⟨_,_,_,rfl⟩
  | look held at_ => exact .inr ⟨_,_,_,held,by simp [at_],rfl⟩
  | read held at_ => exact .inr ⟨_,_,_,held,by simp [at_],rfl⟩
  | draw held at_ => exact .inr ⟨_,_,_,held,by simp [at_],rfl⟩
  | write held at_ => exact .inr ⟨_,_,_,held,by simp [at_],rfl⟩
  | unwritten held at_ => exact .inr ⟨_,_,_,held,by simp [at_],rfl⟩
  | file held at_ => exact .inr ⟨_,_,_,held,by simp [at_],rfl⟩
  | unfiled held at_ => exact .inr ⟨_,_,_,held,by simp [at_],rfl⟩

def Pending (call : Call) (fl : Filelist) : Prop := call.phase = .drawing fl ∨ ∃ id, call.phase = .writing fl id

-- A call keeps its arguments, and its result once it has one.
def Kept (call call' : Call) : Prop :=
  call'.pId = call.pId ∧ call'.name = call.name ∧
    ∀ status id, call.phase = .returned status id → call'.phase = .returned status id

theorem runs_kept (path : Machine.Runs (step junk) ok s labels s') (k : Nat) (call : Call)
    (held : s.calls[k]? = some call) : ∃ call', s'.calls[k]? = some call' ∧ Kept call call' := by
  induction path with
  | nil => exact ⟨call,held,rfl,rfl,fun _ _ same => same⟩
  | snoc _ _ taken ih =>
    obtain ⟨mid,there,pId,name,result⟩ := ih
    rcases (step_moved taken).calls with ⟨_,_,_,added⟩ | ⟨j,moving,phase,at_,running,moved⟩
    · exact ⟨mid,by rw [added]; exact Machine.entry_kept there,pId,name,result⟩
    · by_cases same : k = j
      · cases same
        cases Option.some.inj (at_.symm.trans there)
        refine ⟨{mid with phase:=phase},by rw [moved]; exact Machine.entry_self there,pId,name,fun status id returned => ?_⟩
        exact absurd (result status id returned) (running status id)
      · exact ⟨mid,by rw [moved,Machine.entry_other same]; exact there,pId,name,result⟩

-- The root extent is the serialisation of `dir`, and no other extent can be
-- read as a directory. Nothing is said of the last name.
structure Holds (server : ExtentServer) (dir : Filelist) : Prop where
  stored : server.get 1 = some (serialize dir)
  bounded : (serialize dir).length < 2^32
  others : ∀ id, id ≠ 1 → Unreadable (server.get id)

section Server
variable {server : ExtentServer} {dir fl : Filelist} {pId id : UInt64} {name : List UInt8}
  {answer : Option (List UInt8)}

theorem Holds.refused (holds : Holds server dir) (answered : answer = server.get pId ∨ answer = none)
    (elsewhere : pId ≠ 1 ∨ answer = none) : Unreadable answer := by
  rcases answered with rfl | none
  · rcases elsewhere with other | none
    · exact holds.others pId other
    · exact .inl none
  · exact .inl none

theorem Holds.looked (holds : Holds server dir) (answered : answer = server.get pId ∨ answer = none) :
    looked junk name id answer = .returned .IOERR id ∨
      (pId = 1 ∧ name ∉ dir.map (·.2) ∧ looked junk name id answer = .reading id) ∨
      (pId = 1 ∧ ∃ inum, (inum,name) ∈ dir ∧ looked junk name id answer = .returned .OK inum) := by
  by_cases elsewhere : pId ≠ 1 ∨ answer = none
  · refine .inl ?_
    rw [Creates.looked,lookupIn_unreadable (holds.refused answered elsewhere)]
  · obtain ⟨root,got⟩ := not_or.mp elsewhere
    cases not_not.mp root
    have content := (answered.resolve_right got).trans holds.stored
    simp only [content,Creates.looked,lookupIn,deserialize_serialize junk dir [] holds.bounded,List.nil_append]
    by_cases readable : Readable dir (serialize dir).length
    · simp only [if_pos readable]
      cases found : dir.find? (·.2 == name) with
      | none =>
        refine .inr (.inl ⟨trivial,fun listed => ?_,rfl⟩)
        obtain ⟨entry,member,same⟩ := List.mem_map.mp listed
        exact absurd same (by simpa using List.find?_eq_none.mp found entry member)
      | some entry =>
        refine .inr (.inr ⟨trivial,entry.1,?_,rfl⟩)
        have same : entry.2 = name := by simpa using List.find?_some found
        exact same ▸ List.mem_of_find?_eq_some found
    · simp only [if_neg readable]
      exact .inl trivial

theorem Holds.opened (holds : Holds server dir) (answered : answer = server.get pId ∨ answer = none) :
    opened junk id answer = .returned .IOERR id ∨ (pId = 1 ∧ opened junk id answer = .drawing dir) := by
  by_cases elsewhere : pId ≠ 1 ∨ answer = none
  · refine .inl ?_
    rw [Creates.opened,readdirOf_unreadable (holds.refused answered elsewhere)]
  · obtain ⟨root,got⟩ := not_or.mp elsewhere
    cases not_not.mp root
    have content := (answered.resolve_right got).trans holds.stored
    simp only [content,Creates.opened,readdirOf,deserialize_serialize junk dir [] holds.bounded,List.nil_append]
    by_cases readable : Readable dir (serialize dir).length
    · simp only [if_pos readable]
      exact .inr ⟨trivial,trivial⟩
    · simp only [if_neg readable]
      exact .inl trivial

theorem Fits.bounded {buf : List UInt8} (fits : Fits id buf) : buf.length < 2^32 := by
  simp only [Fits,encodes,Val.encode,List.flatMap_cons,List.flatMap_nil,List.length_append,Words.be32_length,
    maxPdu] at fits
  omega

theorem Holds.write (holds : Holds server dir) (fits : Fits 1 (serialize fl)) :
    Holds (server.put 1 (serialize fl)) fl where
  stored := ExtentServer.put_data_self _ _ _
  bounded := fits.bounded
  others := fun id other => by
    have untouched := holds.others id other
    unfold ExtentServer.get at untouched ⊢
    rwa [ExtentServer.put_data_other _ _ other]

theorem Holds.file (holds : Holds server dir) (isFile : isfile id = true) : Holds (server.put id []) dir where
  stored := by
    have other : (1 : UInt64) ≠ id := by rintro rfl; exact absurd isFile (by decide)
    have stored := holds.stored
    unfold ExtentServer.get at stored ⊢
    rwa [ExtentServer.put_data_other _ _ other]
  bounded := holds.bounded
  others := fun key other => by
    by_cases same : key = id
    · cases same
      exact .inr (ExtentServer.put_data_self _ _ _)
    · have untouched := holds.others key other
      unfold ExtentServer.get at untouched ⊢
      rwa [ExtentServer.put_data_other _ _ same]

end Server

-- Past its first get a call works in the root, and its inum is that of a file.
def Phase.Inside (pId : UInt64) : Phase → Prop
  | .looking _ | .returned .IOERR _ => True
  | .reading _ | .drawing _ | .returned _ _ => pId = 1
  | .writing _ id | .filing id => pId = 1 ∧ isfile id = true

structure Rooted (s : State) (dir : Filelist) : Prop extends Holds s.server dir where
  inside : ∀ (k : Nat) (call : Call), s.calls[k]? = some call → call.phase.Inside call.pId

-- All that a step can do once the root extent is known: the phases a get leads
-- to, and the directory after the step.
inductive Turn (s : State) (dir : Filelist) : Label → State → Filelist → Prop where
  | create : Turn s dir (.create pId name inum) {s with calls:=s.calls ++ [⟨pId,name,.looking inum⟩]} dir
  | refused (held : s.calls[k]? = some call) (at_ : call.phase = .looking inum ∨ call.phase = .reading inum) :
      Turn s dir (.rpc k delivery) (s.goes k call (.returned .IOERR inum)) dir
  | missed (held : s.calls[k]? = some call) (at_ : call.phase = .looking inum) (root : call.pId = 1)
      (missing : call.name ∉ dir.map (·.2)) : Turn s dir (.rpc k delivery) (s.goes k call (.reading inum)) dir
  | found (held : s.calls[k]? = some call) (at_ : call.phase = .looking old) (root : call.pId = 1)
      (member : (inum,call.name) ∈ dir) : Turn s dir (.rpc k delivery) (s.goes k call (.returned .OK inum)) dir
  | read (held : s.calls[k]? = some call) (at_ : call.phase = .reading inum) (root : call.pId = 1) :
      Turn s dir (.rpc k delivery) (s.goes k call (.drawing dir)) dir
  | draw (held : s.calls[k]? = some call) (at_ : call.phase = .drawing fl) (root : call.pId = 1) :
      Turn s dir (.draw k drawn) (s.goes k call (.writing fl (newInum 1 drawn))) dir
  | write (held : s.calls[k]? = some call) (at_ : call.phase = .writing fl inum) (root : call.pId = 1)
      (isFile : isfile inum = true) (effective : delivery ≠ .requestLost)
      (fits : Fits 1 (serialize (fl ++ [(inum,call.name)]))) :
      Turn s dir (.rpc k delivery) (State.goes {s with server:=s.server.put 1 (serialize (fl ++ [(inum,call.name)]))}
        k call (if delivery = .delivered then .filing inum else .returned .IOERR inum)) (fl ++ [(inum,call.name)])
  | unwritten (held : s.calls[k]? = some call) (at_ : call.phase = .writing fl inum) :
      Turn s dir (.rpc k .requestLost) (s.goes k call (.returned .IOERR inum)) dir
  | file (held : s.calls[k]? = some call) (at_ : call.phase = .filing inum) (root : call.pId = 1)
      (isFile : isfile inum = true) (effective : delivery ≠ .requestLost) :
      Turn s dir (.rpc k delivery) (State.goes {s with server:=s.server.put inum []} k call
        (.returned (if delivery = .delivered then .OK else .IOERR) inum)) dir
  | unfiled (held : s.calls[k]? = some call) (at_ : call.phase = .filing inum) :
      Turn s dir (.rpc k .requestLost) (s.goes k call (.returned .IOERR inum)) dir

theorem Rooted.turn (rooted : Rooted s dir) (taken : step junk s label = some s') :
    ∃ dir', Turn s dir label s' dir' := by
  cases step_moved taken with
  | create => exact ⟨dir,.create⟩
  | look held at_ answered =>
    rcases rooted.looked answered with refused | ⟨root,missing,phase⟩ | ⟨root,inum,member,phase⟩
    · exact ⟨dir,refused ▸ .refused held (.inl at_)⟩
    · exact ⟨dir,phase ▸ .missed held at_ root missing⟩
    · exact ⟨dir,phase ▸ .found held at_ root member⟩
  | read held at_ answered =>
    rcases rooted.opened answered with refused | ⟨root,phase⟩
    · exact ⟨dir,refused ▸ .refused held (.inr at_)⟩
    · exact ⟨dir,phase ▸ .read held at_ root⟩
  | draw held at_ =>
    have root := rooted.inside _ _ held
    rw [at_] at root
    exact ⟨dir,.draw held at_ root⟩
  | write held at_ effective fits =>
    obtain ⟨root,isFile⟩ := at_ ▸ rooted.inside _ _ held
    rw [root] at fits ⊢
    exact ⟨_,.write held at_ root isFile effective fits⟩
  | unwritten held at_ => exact ⟨dir,.unwritten held at_⟩
  | file held at_ effective =>
    obtain ⟨root,isFile⟩ := at_ ▸ rooted.inside _ _ held
    exact ⟨dir,.file held at_ root isFile effective⟩
  | unfiled held at_ => exact ⟨dir,.unfiled held at_⟩

theorem Rooted.goes (rooted : Rooted s dir) (server : ExtentServer) (holds : Holds server dir')
    (inside : phase.Inside call.pId) : Rooted (State.goes {s with server:=server} k call phase) dir' where
  toHolds := holds
  inside := by
    intro i other held
    rcases Machine.entry_cases held with ⟨_,rfl⟩ | ⟨_,old⟩
    · exact inside
    · exact rooted.inside i other old

theorem Rooted.step (rooted : Rooted s dir) (turn : Turn s dir label s' dir') : Rooted s' dir' := by
  cases turn with
  | create =>
    refine ⟨rooted.toHolds,fun i other held => ?_⟩
    rcases Machine.entry_append held with old | ⟨_,rfl⟩
    · exact rooted.inside i other old
    · exact trivial
  | refused held at_ => exact rooted.goes s.server rooted.toHolds trivial
  | missed held at_ root missing => exact rooted.goes s.server rooted.toHolds root
  | found held at_ root member => exact rooted.goes s.server rooted.toHolds root
  | read held at_ root => exact rooted.goes s.server rooted.toHolds root
  | draw held at_ root => exact rooted.goes s.server rooted.toHolds ⟨root,isfile_newInum _⟩
  | write held at_ root isFile effective fits =>
    apply rooted.goes _ (rooted.toHolds.write fits)
    split
    · exact ⟨root,isFile⟩
    · exact trivial
  | unwritten held at_ => exact rooted.goes s.server rooted.toHolds trivial
  | file held at_ root isFile effective =>
    apply rooted.goes _ (rooted.toHolds.file isFile)
    split
    · exact root
    · exact trivial
  | unfiled held at_ => exact rooted.goes s.server rooted.toHolds trivial

theorem initial_rooted : Rooted initial [] where
  stored := rfl
  bounded := by decide
  others := fun id other => .inl (if_neg other)
  inside := by
    intro k call held
    simp [initial] at held

theorem Holds.unique {server : ExtentServer} (holds : Holds server dir)
    (stored : server.get 1 = some (serialize fl)) : fl = dir := by
  have same := Option.some.inj (holds.stored.symm.trans stored)
  exact (serialize_injective dir fl holds.bounded same).symm

end YfsLab.Creates
