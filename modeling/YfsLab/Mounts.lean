import YfsLab.Lib.Interference
import YfsLab.Fuse

namespace YfsLab.Mounts
open Interference
open YfsClient ExtentProtocol Fuse
open Creates (Delivery Holds)

-- What the mounts share: the extent server. `drawn` is history: the inums that
-- new_inum has made, with the request each was made for.
structure Shared where
  server : ExtentServer
  drawn : List (Request × UInt64)

def initial : Shared := ⟨.initial,[]⟩

structure Task where
  request : Request
  stack : Locals
  deriving DecidableEq, Repr

-- What becomes of a query: an extent RPC may fail before or after it has taken
-- effect, and rand() may return anything.
inductive Fate where
  | rpc (delivery : Delivery)
  | draw (rand : Rand)
  deriving DecidableEq, Repr

def respondExtent (task : Task) (s : Shared) : (q : Query) → Fate → Option (Answer q × Shared)
  | .rand,.draw rand => some (rand,{s with drawn:=s.drawn ++ [(task.request,newInum 1 rand)]})
  | .rand,.rpc _ => none
  | .get id,.rpc delivery => (Creates.respond s.server (.get id) delivery).map fun (answer,server) => (answer,{s with server})
  | .put id buf,.rpc delivery =>
    (Creates.respond s.server (.put id buf) delivery).map fun (answer,server) => (answer,{s with server})
  | .get _,.draw _ => none
  | .put _ _,.draw _ => none

def respond (task : Task) (s : Shared) : (q : FuseQuery) → Fate → Option (FuseAnswer q × Shared)
  | .extent q,fate => respondExtent task s q fate
  | .getattr id,.rpc .delivered => some (s.server.getattr id,s)
  | .getattr _,.rpc _ => some (none,s)
  | .getattr _,.draw _ => none

-- fuse_session_loop of any number of mounts, each with one request at a time.
abbrev Session (ι : Type) : Type := Pool ι Task Shared FuseQuery FuseAnswer (Option Reply)

def step {ι : Type} [DecidableEq ι] (fmt : DirentFormat) (junk : Nat → UInt8) :
    Session ι → Label ι Task Fate → Option (Session ι) :=
  Interference.step respond fun task => handler fmt junk task.stack task.request

def Made (s : Shared) (name : List UInt8) (ino : UInt64) : Prop :=
  (.create 1 name,ino) ∈ s.drawn ∨ (.mknod 1 name,ino) ∈ s.drawn

def Exists (s : Shared) (ino : UInt64) : Prop := s.server.getattr ino = some ⟨0,0,0,0⟩

-- What the mounts may rely on: the root is a directory of files that were made,
-- nothing else is a directory, and attributes are never set.
structure Orderly (s : Shared) : Prop where
  root : ∃ dir, Holds s.server dir ∧ ∀ entry ∈ dir, Made s entry.2 entry.1
  files : ∀ made ∈ s.drawn, isfile made.2 = true
  unset : ∀ ino a, s.server.getattr ino = some a → a = ⟨0,0,0,0⟩

structure Later (s t : Shared) : Prop where
  drawn : s.drawn ⊆ t.drawn
  stays : ∀ ino, Exists s ino → Exists t ino

theorem Made.later {s t : Shared} (made : Made s name ino) (after : Later s t) : Made t name ino :=
  made.imp (fun member => after.drawn member) (fun member => after.drawn member)

theorem Made.isfile {s : Shared} (orderly : Orderly s) (made : Made s name ino) : isfile ino = true := by
  rcases made with member | member
  · exact orderly.files _ member
  · exact orderly.files _ member

def discipline : Discipline Shared where
  holds := Orderly
  later := Later
  refl := fun _ => ⟨fun _ member => member,fun _ there => there⟩
  trans := fun _ _ _ first second =>
    ⟨fun _ member => second.drawn (first.drawn member),fun _ there => second.stays _ (first.stays _ there)⟩

theorem initial_orderly : Orderly initial where
  root := ⟨[],Creates.initial_rooted.toHolds,fun _ member => nomatch member⟩
  files := fun _ member => nomatch member
  unset := by
    intro ino a held
    simp only [initial,ExtentServer.initial,ExtentServer.getattr,ExtentServer.assign] at held
    split at held
    · exact (Option.some.inj held).symm
    · cases held

variable {junk : Nat → UInt8} {s t u : Shared} {task : Task} {fate : Fate} {dir fl : Filelist} {pId ino : UInt64}
  {name : List UInt8}

theorem answered_get {answer : Option (List UInt8)} (answered : respondExtent task s (.get pId) fate = some (answer,t)) :
    t = s ∧ (answer = s.server.get pId ∨ answer = none) := by
  cases fate with
  | draw => cases answered
  | rpc delivery =>
    obtain ⟨⟨answer',server⟩,responded,same⟩ := Option.map_eq_some_iff.mp answered
    obtain ⟨rfl,got⟩ := Creates.respond_get responded
    cases same
    exact ⟨rfl,got⟩

theorem answered_put {answer : Bool} {buf : List UInt8} (answered : respondExtent task s (.put pId buf) fate = some (answer,t)) :
    (answer = false ∧ t = s) ∨ (Creates.Fits pId buf ∧ t = {s with server:=s.server.put pId buf}) := by
  cases fate with
  | draw => cases answered
  | rpc delivery =>
    obtain ⟨⟨answer',server⟩,responded,same⟩ := Option.map_eq_some_iff.mp answered
    cases same
    rcases Creates.respond_put responded with ⟨_,rfl,rfl⟩ | ⟨_,_,fits,rfl⟩
    · exact .inl ⟨rfl,rfl⟩
    · exact .inr ⟨fits,rfl⟩

theorem put_later (s : Shared) (pId : UInt64) (buf : List UInt8) : Later s {s with server:=s.server.put pId buf} where
  drawn := fun _ member => member
  stays := by
    intro ino there
    unfold Exists at there ⊢
    rw [put_getattr,there]
    split
    · rfl
    · rfl

theorem put_unset (orderly : Orderly s) (pId : UInt64) (buf : List UInt8) (ino : UInt64) (a : Attr)
    (held : (s.server.put pId buf).getattr ino = some a) : a = ⟨0,0,0,0⟩ := by
  rw [put_getattr] at held
  split at held
  · cases before : s.server.getattr ino with
    | none =>
      rw [before] at held
      exact (Option.some.inj held).symm
    | some b =>
      rw [before] at held
      cases Option.some.inj held
      exact orderly.unset ino b before
  · exact orderly.unset ino a held

theorem Orderly.write (orderly : Orderly s) (fits : Creates.Fits 1 (serialize fl))
    (made : ∀ entry ∈ fl, Made s entry.2 entry.1) : Orderly {s with server:=s.server.put 1 (serialize fl)} where
  root := by
    obtain ⟨dir,holds,_⟩ := orderly.root
    exact ⟨fl,holds.write fits,made⟩
  files := orderly.files
  unset := put_unset orderly 1 (serialize fl)

theorem Orderly.file (orderly : Orderly s) (isFile : isfile ino = true) :
    Orderly {s with server:=s.server.put ino []} where
  root := by
    obtain ⟨dir,holds,made⟩ := orderly.root
    exact ⟨dir,holds.file isFile,made⟩
  files := orderly.files
  unset := put_unset orderly ino []

theorem Orderly.draw (orderly : Orderly s) (request : Request) (rand : Rand) :
    Orderly {s with drawn:=s.drawn ++ [(request,newInum 1 rand)]} where
  root := by
    obtain ⟨dir,holds,made⟩ := orderly.root
    refine ⟨dir,holds,fun entry member => ?_⟩
    exact (made entry member).imp (List.mem_append_left _) (List.mem_append_left _)
  files := by
    intro made member
    rcases List.mem_append.mp member with old | new
    · exact orderly.files made old
    · rw [List.mem_singleton.mp new]
      exact isfile_newInum rand
  unset := orderly.unset

theorem lookup_made (orderly : Orderly s) {answer : Option (List UInt8)} (id : UInt64)
    (answered : answer = s.server.get pId ∨ answer = none) (found : (lookupIn junk name id answer).1 = .OK) :
    pId = 1 ∧ Made s name (lookupIn junk name id answer).2 := by
  obtain ⟨dir,holds,made⟩ := orderly.root
  have outcome : Creates.looked junk name id answer = _ ∨ _ := holds.looked answered
  unfold Creates.looked at outcome
  generalize lookupIn junk name id answer = result at outcome found ⊢
  obtain ⟨status,ino⟩ := result
  cases found
  rcases outcome with refused | ⟨_,_,missed⟩ | ⟨root,inum,member,same⟩
  · cases refused
  · cases missed
  · cases same
    exact ⟨root,made _ member⟩

theorem readdir_made (orderly : Orderly s) {answer : Option (List UInt8)}
    (answered : answer = s.server.get pId ∨ answer = none) (read : (readdirOf junk [] answer).1 = .OK) :
    pId = 1 ∧ ∀ entry ∈ (readdirOf junk [] answer).2, Made s entry.2 entry.1 := by
  obtain ⟨dir,holds,made⟩ := orderly.root
  have outcome : Creates.opened junk 0 answer = _ ∨ _ := holds.opened answered
  unfold Creates.opened at outcome
  generalize readdirOf junk [] answer = result at outcome read ⊢
  obtain ⟨status,fl⟩ := result
  cases read
  rcases outcome with refused | ⟨root,same⟩
  · cases refused
  · cases same
    exact ⟨root,made⟩

-- The programs of yfs_client, between any steps of the others.
section Client

theorem keeps_get {post : Shared → Option (List UInt8) → Prop}
    (accepts : ∀ t answer, Orderly t → (answer = t.server.get pId ∨ answer = none) → ∀ u, Later t u → Orderly u → post u answer) :
    Keeps respondExtent discipline task post (ExtentClient.get pId) s := by
  apply keeps_query
  intro t _ orderly fate answer u answered
  obtain ⟨rfl,got⟩ := answered_get answered
  exact ⟨orderly,discipline.refl u,fun v after valid => accepts u answer orderly got v after valid⟩

theorem keeps_lookup (orderly : Orderly s) (id : UInt64) :
    Keeps respondExtent discipline task (fun t result => result.1 = .OK → pId = 1 ∧ Made t name result.2)
      (lookup junk pId name id) s := by
  have asked : Keeps respondExtent discipline task
      (fun t answer => (lookupIn junk name id answer).1 = .OK → pId = 1 ∧ Made t name (lookupIn junk name id answer).2)
      (ExtentClient.get pId) s := by
    apply keeps_get
    intro t answer valid answered u after _ found
    obtain ⟨root,made⟩ := lookup_made valid id answered found
    exact ⟨root,made.later after⟩
  apply asked.bind orderly
  intro t answer _ _ found
  apply keeps_pure
  intro u after _ ok
  obtain ⟨root,made⟩ := found ok
  exact ⟨root,made.later after⟩

theorem keeps_readdir (orderly : Orderly s) :
    Keeps respondExtent discipline task
      (fun t result => result.1 = .OK → pId = 1 ∧ ∀ entry ∈ result.2, Made t entry.2 entry.1) (readdir junk pId []) s := by
  have asked : Keeps respondExtent discipline task
      (fun t answer => (readdirOf junk [] answer).1 = .OK →
        pId = 1 ∧ ∀ entry ∈ (readdirOf junk [] answer).2, Made t entry.2 entry.1) (ExtentClient.get pId) s := by
    apply keeps_get
    intro t answer valid answered u after _ read
    obtain ⟨root,made⟩ := readdir_made valid answered read
    exact ⟨root,fun entry member => (made entry member).later after⟩
  apply asked.bind orderly
  intro t answer _ _ read
  apply keeps_pure
  intro u after _ ok
  obtain ⟨root,made⟩ := read ok
  exact ⟨root,fun entry member => (made entry member).later after⟩

theorem keeps_put {buf : List UInt8} (allowed : ∀ t, Later s t → Orderly t → Creates.Fits pId buf →
      Orderly {t with server:=t.server.put pId buf}) :
    Keeps respondExtent discipline task (fun _ _ => True) (ExtentClient.put pId buf) s := by
  apply keeps_query
  intro t after orderly fate answer u answered
  rcases answered_put answered with ⟨_,rfl⟩ | ⟨fits,rfl⟩
  · exact ⟨orderly,discipline.refl u,fun _ _ _ => trivial⟩
  · exact ⟨allowed t after orderly fits,put_later t pId buf,fun _ _ _ => trivial⟩

theorem keeps_writeFile (orderly : Orderly s) (made : Made s name ino) :
    Keeps respondExtent discipline task (fun t result => result.1 = .OK → Made t name result.2) (writeFile ino) s := by
  have asked : Keeps respondExtent discipline task (fun _ _ => True) (ExtentClient.put ino []) s :=
    keeps_put fun t after valid _ => valid.file ((made.later after).isfile valid)
  apply asked.bind orderly
  intro t answer after _ _
  cases answer with
  | true => exact keeps_pure fun u later _ _ => (made.later after).later later
  | false => exact keeps_pure fun u _ _ failed => nomatch failed

theorem keeps_writeEntry (orderly : Orderly s) (made : Made s name ino) (entries : ∀ entry ∈ fl, Made s entry.2 entry.1) :
    Keeps respondExtent discipline task (fun t result => result.1 = .OK → Made t name result.2) (writeEntry 1 name fl ino) s := by
  have asked : Keeps respondExtent discipline task (fun _ _ => True)
      (ExtentClient.put 1 (serialize (fl ++ [(ino,name)]))) s := by
    apply keeps_put
    intro t after valid fits
    apply valid.write fits
    intro entry member
    rcases List.mem_append.mp member with old | new
    · exact (entries entry old).later after
    · rw [List.mem_singleton.mp new]
      exact made.later after
  apply asked.bind orderly
  intro t answer after valid _
  cases answer with
  | true => exact keeps_writeFile valid (made.later after)
  | false => exact keeps_pure fun u _ _ failed => nomatch failed

def Task.Creates (task : Task) (pId : UInt64) (name : List UInt8) : Prop :=
  task.request = .create pId name ∨ task.request = .mknod pId name

theorem keeps_rand (creates : task.Creates 1 name) :
    Keeps respondExtent discipline task (fun t rand => Made t name (newInum 1 rand)) rand s := by
  apply keeps_query
  intro t _ orderly fate answer u answered
  cases fate with
  | rpc => cases answered
  | draw =>
    cases Option.some.inj answered
    refine ⟨orderly.draw task.request answer,⟨fun _ => List.mem_append_left _,fun _ there => there⟩,?_⟩
    intro v after _
    have new : Made {t with drawn:=t.drawn ++ [(task.request,newInum 1 answer)]} name (newInum 1 answer) := by
      rcases creates with same | same <;> rw [same]
      · exact .inl (List.mem_append_right _ List.mem_cons_self)
      · exact .inr (List.mem_append_right _ List.mem_cons_self)
    exact new.later after

theorem keeps_createfile (orderly : Orderly s) (creates : task.Creates pId name) (id : UInt64) :
    Keeps respondExtent discipline task (fun t result => result.1 = .OK → pId = 1 ∧ Made t name result.2)
      (createfile junk pId name id) s := by
  apply (keeps_lookup orderly id).bind orderly
  rintro t ⟨status,found⟩ after valid looked
  cases status with
  | OK =>
    apply keeps_pure
    intro u later _ _
    obtain ⟨root,made⟩ := looked rfl
    exact ⟨root,made.later later⟩
  | NOENT =>
    apply (keeps_readdir valid).bind valid
    rintro u ⟨status,fl⟩ _ valid' read
    cases status with
    | OK =>
      obtain ⟨rfl,entries⟩ := read rfl
      apply (keeps_rand creates).bind valid'
      intro v rand later valid'' made
      apply (keeps_writeEntry valid'' made fun entry member => (entries entry member).later later).weaken
      exact fun _ _ _ _ written ok => ⟨rfl,written ok⟩
    | RPCERR | NOENT | IOERR | FBIG => exact keeps_pure fun _ _ _ failed => nomatch failed
  | RPCERR | IOERR | FBIG => exact keeps_pure fun _ _ _ failed => nomatch failed

end Client

-- The handlers of fuse.cc, and what their replies tell.
def fileStat (ino : UInt64) : Stat := ⟨ino,fileMode,1,0,0,0,0⟩

def Named (s : Shared) (parent : UInt64) (name : List UInt8) (ino : UInt64) : Prop :=
  parent = 1 ∧ Made s name ino ∧ Exists s ino

-- A listing may miss entries, or all of them where an RPC failed.
def Listed (fmt : DirentFormat) (s : Shared) (ino size off : UInt64) (reply : Option Reply) : Prop :=
  ∃ fl, (∀ entry ∈ fl, ino = 1 ∧ Made s entry.2 entry.1) ∧
    reply = (Readdir.fill fmt .empty fl).map fun b => .buf (Readdir.replyBufLimited b off size)

def Explained (fmt : DirentFormat) (task : Task) (s : Shared) (reply : Option Reply) : Prop :=
  match task.request with
  | .getattr ino => reply = some (.err .ENOENT) ∨ (Exists s ino ∧ reply = some (.attr (statOf ino ⟨0,0,0,0⟩)))
  | .create parent name =>
    reply = some (.err .ENOENT) ∨ ∃ ino, Named s parent name ino ∧ reply = some (.create ⟨ino,0,fileStat ino⟩)
  | .mknod parent name =>
    reply = some (.err .ENOENT) ∨ ∃ ino, Named s parent name ino ∧ reply = some (.entry ⟨ino,0,fileStat ino⟩)
  | .lookup parent name =>
    reply = some (.err .ENOENT) ∨ ∃ ino, Named s parent name ino ∧ reply = some (.entry ⟨ino,task.stack.generation,fileStat ino⟩)
  | .readdir ino size off => if isfile ino then reply = some (.err .ENOTDIR) else Listed fmt s ino size off reply
  | .setattr _ | .read _ | .write _ | .mkdir _ _ | .unlink _ _ => reply = some (.err .ENOSYS)
  | .open_ _ => reply = some .open_
  | .statfs => reply = some (.statfs 255 512)

section Handlers
variable {fmt : DirentFormat} {α : Type} {stack : Locals} {parent : UInt64}

theorem keeps_ofClient {post : Shared → α → Prop} {program : Client α}
    (keeps : Keeps respondExtent discipline task post program s) : Keeps respond discipline task post (ofClient program) s :=
  keeps.lift fun _ _ _ _ _ answered => answered

theorem Named.later (named : Named s parent name ino) (after : Later s t) : Named t parent name ino :=
  ⟨named.1,named.2.1.later after,after.stays ino named.2.2⟩

theorem keeps_getattr (ino : UInt64) :
    Keeps respond discipline task (fun t result => ∀ st, result = .ok st → Exists t ino ∧ st = statOf ino ⟨0,0,0,0⟩)
      (getattr ino) s := by
  rw [getattr_eq]
  intro t _ orderly fate answer u answered
  have outcome : u = t ∧ (answer = t.server.getattr ino ∨ answer = none) := by
    cases fate with
    | draw => cases answered
    | rpc delivery =>
      cases delivery with
      | delivered => cases Option.some.inj answered; exact ⟨rfl,.inl rfl⟩
      | requestLost | replyLost => cases Option.some.inj answered; exact ⟨rfl,.inr rfl⟩
  obtain ⟨rfl,got⟩ := outcome
  refine ⟨orderly,discipline.refl u,?_⟩
  rcases got with got | rfl
  · cases held : u.server.getattr ino with
    | none =>
      rw [got,held]
      exact fun v _ _ st failed => nomatch failed
    | some a =>
      rw [got,held]
      intro v after _ st same
      cases orderly.unset ino a held
      exact ⟨after.stays ino held,(Except.ok.inj same).symm⟩
  · exact fun v _ _ st failed => nomatch failed

theorem Made.stat (orderly : Orderly s) (made : Made s name ino) : statOf ino ⟨0,0,0,0⟩ = fileStat ino := by
  rw [statOf,if_pos (made.isfile orderly)]
  rfl

theorem keeps_named (named : parent = 1 ∧ Made s name ino) :
    Keeps respond discipline task (fun t result => ∀ st, result = .ok st → Named t parent name ino ∧ st = fileStat ino)
      (getattr ino) s := by
  apply (keeps_getattr ino).weaken
  intro t result after orderly got st ok
  obtain ⟨there,rfl⟩ := got st ok
  exact ⟨⟨named.1,named.2.later after,there⟩,(named.2.later after).stat orderly⟩

theorem keeps_createhelper (orderly : Orderly s) (creates : task.Creates parent name) :
    Keeps respond discipline task
      (fun t result => ∀ e, result = .ok e → ∃ ino, Named t parent name ino ∧ e = ⟨ino,0,fileStat ino⟩)
      (fuseserverCreatehelper junk stack parent name) s := by
  apply (keeps_ofClient (keeps_createfile orderly creates stack.id)).bind orderly
  rintro t ⟨status,ino⟩ _ valid created
  cases status with
  | OK =>
    apply (keeps_named (created rfl)).bind valid
    intro u result _ _ named
    cases result with
    | ok st =>
      apply keeps_pure
      intro v later _ e same
      obtain ⟨there,rfl⟩ := named st rfl
      exact ⟨ino,there.later later,(Except.ok.inj same).symm⟩
    | error => exact keeps_pure fun _ _ _ e failed => nomatch failed
  | RPCERR | NOENT | IOERR | FBIG => exact keeps_pure fun _ _ _ e failed => nomatch failed

theorem keeps_entered {shape : EntryParam → Reply} (orderly : Orderly s) (creates : task.Creates parent name) :
    Keeps respond discipline task
      (fun t reply => reply = .err .ENOENT ∨ ∃ ino, Named t parent name ino ∧ reply = shape ⟨ino,0,fileStat ino⟩)
      (do match ← fuseserverCreatehelper junk stack parent name with
          | .ok e => return shape e
          | .error _ => return .err .ENOENT) s := by
  apply (keeps_createhelper orderly creates).bind orderly
  intro t result _ _ helped
  cases result with
  | ok e =>
    apply keeps_pure
    intro u after _
    obtain ⟨ino,named,rfl⟩ := helped e rfl
    exact .inr ⟨ino,named.later after,rfl⟩
  | error => exact keeps_pure fun _ _ _ => .inl rfl

theorem keeps_fuseserverLookup (orderly : Orderly s) :
    Keeps respond discipline task
      (fun t reply => reply = .err .ENOENT ∨ ∃ ino, Named t parent name ino ∧ reply = .entry ⟨ino,stack.generation,fileStat ino⟩)
      (fuseserverLookup junk stack parent name) s := by
  apply (keeps_ofClient (keeps_lookup orderly stack.id)).bind orderly
  rintro t ⟨status,ino⟩ _ valid found
  cases status with
  | OK =>
    apply (keeps_named (found rfl)).bind valid
    intro u result _ _ named
    cases result with
    | ok st =>
      apply keeps_pure
      intro v later _
      obtain ⟨there,rfl⟩ := named st rfl
      exact .inr ⟨ino,there.later later,rfl⟩
    | error => exact keeps_pure fun _ _ _ => .inl rfl
  | RPCERR | NOENT | IOERR | FBIG => exact keeps_pure fun _ _ _ => .inl rfl

theorem keeps_fuseserverGetattr (orderly : Orderly s) (ino : UInt64) :
    Keeps respond discipline task
      (fun t reply => reply = .err .ENOENT ∨ (Exists t ino ∧ reply = .attr (statOf ino ⟨0,0,0,0⟩)))
      (fuseserverGetattr ino) s := by
  apply (keeps_getattr ino).bind orderly
  intro t result _ _ got
  cases result with
  | ok st =>
    apply keeps_pure
    intro u after _
    obtain ⟨there,rfl⟩ := got st rfl
    exact .inr ⟨after.stays ino there,rfl⟩
  | error => exact keeps_pure fun _ _ _ => .inl rfl

def Filled (fmt : DirentFormat) (s : Shared) (ino size off : UInt64) (reply : Option Readdir.Reply) : Prop :=
  if isfile ino then reply = some .err else ∃ fl, (∀ entry ∈ fl, ino = 1 ∧ Made s entry.2 entry.1) ∧
    reply = (Readdir.fill fmt .empty fl).map fun b => .buf (Readdir.replyBufLimited b off size)

theorem keeps_fuseserverReaddir (orderly : Orderly s) (ino size off : UInt64) :
    Keeps respondExtent discipline task (fun t reply => Filled fmt t ino size off reply)
      (Readdir.fuseserverReaddir fmt junk ino size off) s := by
  unfold Readdir.fuseserverReaddir Filled isdir
  cases file : isfile ino with
  | true => exact keeps_pure fun _ _ _ => rfl
  | false =>
    simp only [Bool.not_false,if_true,Bool.false_eq_true,if_false]
    apply (keeps_readdir orderly).bind orderly
    rintro t ⟨status,fl⟩ _ _ read
    apply keeps_pure
    intro u after _
    cases status with
    | OK =>
      obtain ⟨root,made⟩ := read rfl
      exact ⟨fl,fun entry member => ⟨root,(made entry member).later after⟩,rfl⟩
    | RPCERR | NOENT | IOERR | FBIG => exact ⟨[],by simp,rfl⟩

theorem filled_listed {reply : Option Readdir.Reply} {ino size off : UInt64} (filled : Filled fmt s ino size off reply) :
    if isfile ino then reply.map ofReaddir = some (.err .ENOTDIR) else Listed fmt s ino size off (reply.map ofReaddir) := by
  unfold Filled at filled
  split at filled
  · rename_i file
    rw [if_pos file,filled]
    rfl
  · rename_i directory
    rw [if_neg directory]
    obtain ⟨fl,made,rfl⟩ := filled
    refine ⟨fl,made,?_⟩
    cases Readdir.fill fmt .empty fl with
    | none => rfl
    | some b => rfl

theorem handler_explained (task : Task) (orderly : Orderly s) :
    Keeps respond discipline task (Explained fmt task) (handler fmt junk task.stack task.request) s := by
  unfold Explained
  cases same : task.request with
  | getattr ino =>
    apply (keeps_fuseserverGetattr orderly ino).map
    rintro t reply _ (rfl | ⟨there,rfl⟩)
    · exact .inl rfl
    · exact .inr ⟨there,rfl⟩
  | create parent name =>
    apply (keeps_entered orderly (.inl same)).map
    rintro t reply _ (rfl | ⟨ino,named,rfl⟩)
    · exact .inl rfl
    · exact .inr ⟨ino,named,rfl⟩
  | mknod parent name =>
    apply (keeps_entered orderly (.inr same)).map
    rintro t reply _ (rfl | ⟨ino,named,rfl⟩)
    · exact .inl rfl
    · exact .inr ⟨ino,named,rfl⟩
  | lookup parent name =>
    apply (keeps_fuseserverLookup orderly).map
    rintro t reply _ (rfl | ⟨ino,named,rfl⟩)
    · exact .inl rfl
    · exact .inr ⟨ino,named,rfl⟩
  | readdir ino size off =>
    apply (keeps_ofClient (keeps_fuseserverReaddir orderly ino size off)).map
    exact fun _ _ _ => filled_listed
  | setattr | read | write | mkdir | unlink | open_ | statfs => exact keeps_pure fun _ _ _ => rfl

end Handlers

theorem replies_explained {ι : Type} [DecidableEq ι] {fmt : DirentFormat} {s : Session ι}
    {labels : List (Label ι Task Fate)}
    (path : Machine.Runs (step fmt junk) Machine.free (idle initial) labels s) (i : ι) (task : Task) (reply : Option Reply)
    (replied : (i,task,reply) ∈ s.history) : Explained fmt task s.shared reply := by
  obtain ⟨_,explained⟩ := runs_keep (fun task s orderly => handler_explained task orderly) initial_orderly path
  exact explained (i,task,reply) replied

-- A mount looks a name up while another creates it. The one that creates it is
-- told that there is no such file, for its last RPC is lost.
def overlapping : List (Label Bool Task Fate) :=
  [.start true ⟨.create 1 [97],⟨0,0⟩⟩,.ask true (.rpc .delivered),.ask true (.rpc .delivered),.ask true (.draw 0),
   .ask true (.rpc .delivered),.start false ⟨.lookup 1 [97],⟨3,5⟩⟩,.ask false (.rpc .delivered),.ask true (.rpc .delivered),
   .ask false (.rpc .delivered),.finish false,.ask true (.rpc .requestLost),.finish true]

theorem other_mount_finds : ∃ (labels : List (Label Bool Task Fate)) (s : Session Bool),
    Machine.Runs (step fuseDirent (fun _ => 0)) Machine.free (idle initial) labels s ∧
      (true,⟨.create 1 [97],⟨0,0⟩⟩,some (.err .ENOENT)) ∈ s.history ∧ Named s.shared 1 [97] 0x80000000 := by
  have ran : (Machine.exec (step fuseDirent (fun _ => 0)) (idle initial) overlapping).map Pool.history =
      some [(false,⟨.lookup 1 [97],⟨3,5⟩⟩,some (.entry ⟨0x80000000,5,fileStat 0x80000000⟩)),
        (true,⟨.create 1 [97],⟨0,0⟩⟩,some (.err .ENOENT))] := by decide +kernel
  obtain ⟨s,path,history⟩ := Machine.exec_free_observed ran
  have explained := replies_explained path false ⟨.lookup 1 [97],⟨3,5⟩⟩ (some (.entry ⟨0x80000000,5,fileStat 0x80000000⟩))
    (by rw [history]; exact List.mem_cons_self)
  refine ⟨_,s,path,by rw [history]; simp,?_⟩
  rcases explained with failed | ⟨ino,named,same⟩
  · cases failed
  · cases same
    exact named

end YfsLab.Mounts
