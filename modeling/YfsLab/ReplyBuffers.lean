import YfsLab.Lib.Heap
import YfsLab.Lib.OrderedMap
import YfsLab.Rpcs

namespace YfsLab.ReplyBuffers
open ReplyWindow (RpcstateT ReplyT)
open Rpcs (Job Pc Config reply)

abbrev Memory := Heap (List UInt8)

-- rpcs::reply_t with its pointer; `none` is NULL.
structure Entry where
  xid : UInt32
  cbPresent : Bool
  buf : Option Nat
  sz : Nat
  deriving DecidableEq, Repr

def Entry.fresh (xid : UInt32) : Entry := ⟨xid,false,none,0⟩

structure Answer where
  stat : RpcstateT
  out : Option (Option Nat × Nat)
  deriving DecidableEq, Repr

-- The loop of checkduplicate_and_update with what it frees.
def scan (xid xidRep : UInt32) (heap : Memory) : List Entry → Option Answer × Memory × List Entry
  | [] => (none,heap,[])
  | it :: rest =>
    if it.xid = xid then
      if it.xid ≤ xidRep then (some ⟨.FORGOTTEN,none⟩,heap.free it.buf,rest)
      else if it.cbPresent then (some ⟨.DONE,some (it.buf,it.sz)⟩,heap,it :: rest)
      else (some ⟨.INPROGRESS,none⟩,heap,it :: rest)
    else if it.xid ≤ xidRep then scan xid xidRep (heap.free it.buf) rest
    else
      let (answer,heap,kept) := scan xid xidRep heap rest
      (answer,heap,it :: kept)

def checkduplicateAndUpdate (xid xidRep : UInt32) (heap : Memory) (entries : List Entry) : Answer × Memory × List Entry :=
  match scan xid xidRep heap entries with
  | (some answer,heap,kept) => (answer,heap,kept)
  | (none,heap,kept) => (⟨.NEW,none⟩,heap,kept ++ [.fresh xid])

-- add_reply: malloc and memcpy for the first entry of the xid. The pointer that
-- was in the entry is overwritten.
def addReply (xid : UInt32) (b : List UInt8) (sz : Nat) (heap : Memory) : List Entry → Memory × List Entry
  | [] => (heap,[])
  | it :: rest =>
    if it.xid = xid then (heap.alloc (b.take sz),{it with buf:=some heap.next,sz,cbPresent:=true} :: rest)
    else
      let (heap,rest) := addReply xid b sz heap rest
      (heap,it :: rest)

-- The variables of a dispatch that hold buffers: _buf of the marshall object
-- rep, which its destructor frees, b1 with sz1, and stat.
structure Local where
  rep : Option Nat
  b1 : Option Nat
  sz1 : Nat
  stat : Option RpcstateT
  deriving DecidableEq, Repr

abbrev Windows := OrderedMap (compare : UInt32 → UInt32 → Ordering) (List Entry)

-- `stored` and `lost` are histories: what add_reply has copied, and the buffers
-- to which the last pointer has gone. No step reads them.
structure Mem where
  heap : Memory
  windows : Windows
  locals : List Local
  stored : List (UInt32 × UInt32 × List UInt8)
  lost : List Nat

structure State (C : Type) where
  server : Rpcs.State C
  mem : Mem

def initial {C : Type} : State C := ⟨Rpcs.initial,⟨.empty,.empty,[],[],[]⟩⟩

section Steps
variable {C : Type} [DecidableEq C]

def setLocal (m : Mem) (j : Nat) (loc : Local) : Mem := {m with locals:=m.locals.set j loc}

def content (heap : Memory) (p : Option Nat) : List UInt8 := (p.bind heap.read).getD []

-- rep is constructed after the header has been read. Its buffer is one handle
-- until it is taken or freed, whether realloc moves it or not, and holds what
-- has been marshalled.
def construct (m : Mem) (j : Nat) (loc : Local) (bytes : List UInt8) (stat : Option RpcstateT) : Mem :=
  setLocal {m with heap:=m.heap.alloc bytes} j {loc with rep:=some m.heap.next,stat}

def start (cfg : Config) (m : Mem) (j : Nat) (job : Job C) (loc : Local) : Mem :=
  if job.req.ok = false then m
  else if job.h.srvNonce ≠ 0 ∧ job.h.srvNonce ≠ cfg.nonce then
    construct m j loc (reply job RpcConst.oldsrvFailure none) none
  else if (cfg.procs job.h.proc).isNone then
    {m with heap:=(m.heap.alloc (Marshall.new job.junk).str).free (some m.heap.next)}
  else construct m j loc (Marshall.new job.junk).str (if job.h.cltNonce = 0 then some .NEW else none)

def window (m : Mem) (clt : UInt32) : Mem :=
  match m.windows.find clt with
  | none => {m with windows:=m.windows.assign clt []}
  | some _ => m

-- The switch on the answer: b1 is a pointer into the window, and rep takes the
-- reply to a forgotten request.
def answered (heap : Memory) (job : Job C) (loc : Local) (answer : Answer) : Memory × Local :=
  match answer.stat with
  | .DONE => (heap,{loc with b1:=(answer.out.getD (none,0)).1,sz1:=(answer.out.getD (none,0)).2,stat:=some .DONE})
  | .FORGOTTEN =>
    (loc.rep.elim heap (heap.write · (reply job RpcConst.atmostonceFailure none)),{loc with stat:=some .FORGOTTEN})
  | stat => (heap,{loc with stat:=some stat})

def check (m : Mem) (j : Nat) (job : Job C) (loc : Local) : Mem :=
  match m.windows.find job.h.cltNonce with
  | none => m
  | some entries =>
    let (answer,heap,kept) := checkduplicateAndUpdate job.h.xid job.h.xidRep m.heap entries
    let (heap,loc) := answered heap job loc answer
    setLocal {m with heap,windows:=m.windows.assign job.h.cltNonce kept} j loc

def takeBuf (m : Mem) (j : Nat) (loc : Local) (bytes : List UInt8) : Mem :=
  setLocal {m with heap:=loc.rep.elim m.heap (m.heap.write · bytes)} j {loc with rep:=none,b1:=loc.rep,sz1:=bytes.length}

def add (m : Mem) (job : Job C) (loc : Local) : Mem :=
  if job.h.cltNonce > 0 then
    let entries := (m.windows.find job.h.cltNonce).getD []
    let b := content m.heap loc.b1
    let (heap,kept) := addReply job.h.xid b loc.sz1 m.heap entries
    let old := entries.find? fun it => it.xid = job.h.xid
    {m with heap,windows:=m.windows.assign job.h.cltNonce kept,
            stored:=m.stored ++ old.toList.map fun _ => (job.h.cltNonce,job.h.xid,b.take loc.sz1),
            lost:=m.lost ++ (old.bind Entry.buf).toList}
  else m

-- The end of dispatch: the free of case NEW and the destructor of rep.
def finish (m : Mem) (j : Nat) (job : Job C) (loc : Local) : Mem :=
  let new := loc.stat = some .NEW
  let heap := if new ∧ job.h.cltNonce = 0 then m.heap.free loc.b1 else m.heap
  let lost := if new ∧ job.h.cltNonce ≠ 0 then m.lost ++ loc.b1.toList else m.lost
  setLocal {m with heap:=heap.free loc.rep,lost} j {loc with rep:=none,b1:=none}

-- What a step of the server does to the memory; `after` is the server then.
def jobEffect (cfg : Config) (m : Mem) (j : Nat) (job : Job C) (loc : Local) (after : Rpcs.State C) : Rpcs.Label C → Mem
  | .start _ => start cfg m j job loc
  | .window _ => window m job.h.cltNonce
  | .check _ => check m j job loc
  | .run _ _ _ =>
    match after.jobs[j]? with
    | some job' => if after.crashed then m else takeBuf m j loc job'.b1
    | none => m
  | .add _ => add m job loc
  | .send _ => if job.pc = .sendOld then finish m j job loc else m
  | .decref _ => finish m j job loc
  | _ => m

def effect (cfg : Config) (s : State C) (after : Rpcs.State C) (label : Rpcs.Label C) : Mem :=
  match label.job with
  | none =>
    match label with
    | .take _ => {s.mem with locals:=s.mem.locals ++ [⟨none,none,0,none⟩]}
    | _ => s.mem
  | some j =>
    match s.server.jobs[j]?,s.mem.locals[j]? with
    | some job,some loc => jobEffect cfg s.mem j job loc after label
    | _,_ => s.mem

def step (cfg : Config) (s : State C) (label : Rpcs.Label C) : Option (State C) :=
  (Rpcs.step cfg s.server label).map fun after => ⟨after,effect cfg s after label⟩

-- What c->send reads for a dispatch. `none` is memory that is not valid.
def sends (s : State C) (j : Nat) : Option (List UInt8) :=
  match s.server.jobs[j]?,s.mem.locals[j]? with
  | some job,some loc =>
    if job.pc = .send ∧ (loc.stat = some .NEW ∨ loc.stat = some .DONE) then
      (loc.b1.bind s.mem.heap.read).bind fun cell => if loc.sz1 ≤ cell.length then some (cell.take loc.sz1) else none
    else if job.pc = .send ∨ job.pc = .sendOld then loc.rep.bind s.mem.heap.read
    else none
  | _,_ => none

def freeReplyWindow (m : Mem) : Mem :=
  {m with heap:=m.heap.freeAll (m.windows.entries.flatMap fun client => client.2.map Entry.buf),windows:=.empty}

end Steps

-- What the loop for a request visits, and what of it it frees and erases.
def reached (xid : UInt32) : List Entry → List Entry
  | [] => []
  | it :: rest => if it.xid = xid then [it] else it :: reached xid rest

def pruned (xid xidRep : UInt32) (entries : List Entry) : List Entry :=
  (reached xid entries).filter fun it => it.xid ≤ xidRep

def Entry.view (heap : Memory) (it : Entry) : ReplyT := ⟨it.xid,it.cbPresent,content heap it.buf,it.sz⟩

def Answer.view (heap : Memory) (answer : Answer) : ReplyWindow.Answer :=
  ⟨answer.stat,answer.out.map fun found => (content heap found.1,found.2)⟩

def handles (entries : List Entry) : List Nat := entries.filterMap Entry.buf

section Scan
variable {xid xidRep : UInt32} {heap : Memory} {entries : List Entry} {it : Entry}

theorem scan_heap (xid xidRep : UInt32) (heap : Memory) (entries : List Entry) :
    (scan xid xidRep heap entries).2.1 = heap.freeAll ((pruned xid xidRep entries).map Entry.buf) := by
  induction entries generalizing heap with
  | nil => rfl
  | cons it rest ih =>
    simp only [scan,pruned,reached]
    by_cases own : it.xid = xid
    · rw [if_pos own,if_pos own]
      by_cases small : it.xid ≤ xidRep
      · simp [small,Heap.freeAll]
      · rw [if_neg small]
        split <;> simp [small,Heap.freeAll]
    · rw [if_neg own,if_neg own]
      by_cases small : it.xid ≤ xidRep
      · rw [if_pos small,ih]
        simp [small,pruned,Heap.freeAll]
      · rw [if_neg small]
        simpa [small,pruned] using ih heap

theorem scan_kept (xid xidRep : UInt32) (heap : Memory) (entries : List Entry) :
    entries.Perm (pruned xid xidRep entries ++ (scan xid xidRep heap entries).2.2) := by
  induction entries generalizing heap with
  | nil => exact List.Perm.refl _
  | cons it rest ih =>
    simp only [scan,pruned,reached]
    by_cases own : it.xid = xid
    · rw [if_pos own,if_pos own]
      by_cases small : it.xid ≤ xidRep
      · simp [small]
      · rw [if_neg small]
        split <;> simp [small]
    · rw [if_neg own,if_neg own]
      by_cases small : it.xid ≤ xidRep
      · rw [if_pos small]
        simpa [small,pruned] using ih (heap.free it.buf)
      · rw [if_neg small]
        simpa [small,pruned] using (List.Perm.cons it (ih heap)).trans List.perm_middle.symm

theorem scan_view (xid xidRep : UInt32) (before heap : Memory) (entries : List Entry) :
    ReplyWindow.scan xid xidRep (entries.map (Entry.view before)) =
      ((scan xid xidRep heap entries).1.map (Answer.view before),(scan xid xidRep heap entries).2.2.map (Entry.view before)) := by
  induction entries generalizing heap with
  | nil => rfl
  | cons it rest ih =>
    simp only [List.map_cons,ReplyWindow.scan,scan,Entry.view]
    by_cases own : it.xid = xid
    · rw [if_pos own,if_pos own]
      split
      · rfl
      · split <;> rfl
    · rw [if_neg own,if_neg own]
      split
      · exact ih _
      · rw [ih heap]
        rfl

theorem check_heap (xid xidRep : UInt32) (heap : Memory) (entries : List Entry) :
    (checkduplicateAndUpdate xid xidRep heap entries).2.1 = heap.freeAll ((pruned xid xidRep entries).map Entry.buf) := by
  rw [← scan_heap]
  unfold checkduplicateAndUpdate
  split <;> rename_i result <;> rw [result]

theorem check_kept (xid xidRep : UInt32) (heap : Memory) (entries : List Entry) :
    (handles entries).Perm (handles (pruned xid xidRep entries) ++
      handles (checkduplicateAndUpdate xid xidRep heap entries).2.2) := by
  have kept := (scan_kept xid xidRep heap entries).filterMap Entry.buf
  rw [List.filterMap_append] at kept
  unfold checkduplicateAndUpdate
  split <;> rename_i result <;> rw [result] at kept
  · exact kept
  · simpa [handles,Entry.fresh] using kept

theorem check_view (xid xidRep : UInt32) (before heap : Memory) (entries : List Entry) :
    ReplyWindow.check xid xidRep (entries.map (Entry.view before)) =
      ((checkduplicateAndUpdate xid xidRep heap entries).1.view before,
        (checkduplicateAndUpdate xid xidRep heap entries).2.2.map (Entry.view before)) := by
  rw [ReplyWindow.check,scan_view xid xidRep before heap entries,checkduplicateAndUpdate]
  obtain ⟨answer,after,kept⟩ := scan xid xidRep heap entries
  cases answer with
  | none => simp [Answer.view,Entry.view,Entry.fresh,ReplyT.fresh,content]
  | some answer => rfl

theorem scan_done {answer : Answer} (answered : (scan xid xidRep heap entries).1 = some answer) (done : answer.stat = .DONE) :
    ∃ it ∈ (scan xid xidRep heap entries).2.2, it.xid = xid ∧ it.cbPresent = true ∧ answer.out = some (it.buf,it.sz) := by
  induction entries generalizing heap with
  | nil => cases answered
  | cons it rest ih =>
    simp only [scan] at answered ⊢
    split at answered
    · rename_i own
      rw [if_pos own]
      split at answered
      · cases Option.some.inj answered
        cases done
      · rename_i large
        rw [if_neg large]
        split at answered
        · rename_i present
          cases Option.some.inj answered
          rw [if_pos present]
          exact ⟨it,List.mem_cons_self,own,present,rfl⟩
        · cases Option.some.inj answered
          cases done
    · rename_i other
      rw [if_neg other]
      split at answered
      · rename_i small
        rw [if_pos small]
        exact ih answered
      · rename_i large
        rw [if_neg large]
        obtain ⟨found,member,rest⟩ := ih answered
        exact ⟨found,List.mem_cons_of_mem _ member,rest⟩

theorem check_done (done : (checkduplicateAndUpdate xid xidRep heap entries).1.stat = .DONE) :
    ∃ it ∈ (checkduplicateAndUpdate xid xidRep heap entries).2.2, it.xid = xid ∧ it.cbPresent = true ∧
      (checkduplicateAndUpdate xid xidRep heap entries).1.out = some (it.buf,it.sz) := by
  unfold checkduplicateAndUpdate at done ⊢
  split at done
  · rename_i result
    have found := scan_done (congrArg Prod.fst result) done
    rw [result] at found
    exact found
  · cases done

theorem addReply_missing (b : List UInt8) (sz : Nat) (absent : entries.find? (fun it => it.xid = xid) = none) :
    addReply xid b sz heap entries = (heap,entries) := by
  induction entries with
  | nil => rfl
  | cons it rest ih =>
    have other : it.xid ≠ xid := fun same => by simp [same] at absent
    rw [List.find?_cons_of_neg (by simpa using other)] at absent
    rw [addReply,if_neg other,ih absent]

theorem addReply_found (b : List UInt8) (sz : Nat) {old : Entry} (found : entries.find? (fun it => it.xid = xid) = some old) :
    ∃ before rest, entries = before ++ old :: rest ∧ old.xid = xid ∧ (∀ it ∈ before, it.xid ≠ xid) ∧
      addReply xid b sz heap entries =
        (heap.alloc (b.take sz),before ++ {old with buf:=some heap.next,sz,cbPresent:=true} :: rest) := by
  induction entries with
  | nil => cases found
  | cons it rest ih =>
    by_cases own : it.xid = xid
    · rw [List.find?_cons_of_pos (by simpa using own)] at found
      cases Option.some.inj found
      exact ⟨[],rest,rfl,own,by simp,by rw [addReply,if_pos own]; rfl⟩
    · rw [List.find?_cons_of_neg (by simpa using own)] at found
      obtain ⟨before,behind,rfl,same,others,added⟩ := ih found
      refine ⟨it :: before,behind,rfl,same,fun other member => ?_,by rw [addReply,if_neg own,added]; rfl⟩
      rcases List.mem_cons.mp member with rfl | later
      · exact own
      · exact others other later

end Scan

theorem check_known {C : Type} {m : Mem} {job : Job C} (j : Nat) (loc : Local)
    (known : m.windows.find job.h.cltNonce = some entries) :
    ∃ result, result = checkduplicateAndUpdate job.h.xid job.h.xidRep m.heap entries ∧
      check m j job loc =
        setLocal {m with heap:=(answered result.2.1 job loc result.1).1,windows:=m.windows.assign job.h.cltNonce result.2.2}
          j (answered result.2.1 job loc result.1).2 := by
  refine ⟨_,rfl,?_⟩
  rw [check,known]

section Joint
variable {C : Type} [DecidableEq C] {cfg : Config} {s s' : State C} {label : Rpcs.Label C}

def Guarded (cfg : Config) (job : Job C) : Prop :=
  job.req.ok = true ∧ (job.h.srvNonce = 0 ∨ job.h.srvNonce = cfg.nonce) ∧ cfg.procs job.h.proc ≠ none ∧ job.h.cltNonce ≠ 0

inductive Passes (cfg : Config) (job : Job C) : Pc → Prop where
  | leave : job.pc = .start → ¬ Guarded cfg job → Passes cfg job .finished
  | record : job.pc = .record → Passes cfg job .check
  | added : job.pc = .add → job.h.cltNonce = 0 → Passes cfg job .choose
  | chose : job.pc = .choose → Passes cfg job .send
  | sent : job.pc = .send → Passes cfg job .decref

-- What becomes of a dispatch that constructs rep and keeps it.
def Opens (cfg : Config) (job job' : Job C) (bytes : List UInt8) (stat : Option RpcstateT) : Prop :=
  (job'.pc = .sendOld ∧ job'.b1 = bytes ∧ stat = none ∧ ¬ Guarded cfg job) ∨
    (job'.pc = .run ∧ job.h.cltNonce = 0 ∧ stat = some .NEW) ∨ (job'.pc = .window ∧ Guarded cfg job ∧ stat = none)

-- What a step can do to the dispatches and the memory. The dispatch j stands at
-- `job` with the variables `loc` before the step.
inductive Joint (cfg : Config) (s : State C) : Rpcs.Label C → State C → Prop where
  | outside : after.jobs = s.server.jobs → after.windows = s.server.windows → Joint cfg s l ⟨after,s.mem⟩
  | taken : after.jobs = s.server.jobs ++ [⟨c,c,pdu,junk,[],.start⟩] → after.windows = s.server.windows →
      Joint cfg s l ⟨after,{s.mem with locals:=s.mem.locals ++ [⟨none,none,0,none⟩]}⟩
  | passed : s.server.jobs[j]? = some job → s.mem.locals[j]? = some loc → after.jobs = s.server.jobs.set j job' →
      after.windows = s.server.windows → job'.pdu = job.pdu → job'.b1 = job.b1 → Passes cfg job job'.pc →
      Joint cfg s l ⟨after,s.mem⟩
  | opened : s.server.jobs[j]? = some job → s.mem.locals[j]? = some loc → after.jobs = s.server.jobs.set j job' →
      after.windows = s.server.windows → job'.pdu = job.pdu → job.pc = .start → Opens cfg job job' bytes stat →
      Joint cfg s l ⟨after,construct s.mem j loc bytes stat⟩
  | refused : s.server.jobs[j]? = some job → s.mem.locals[j]? = some loc →
      after.jobs = s.server.jobs.set j {job with pc:=.finished} → after.windows = s.server.windows →
      job.pc = .start → ¬ Guarded cfg job →
      Joint cfg s l ⟨after,{s.mem with heap:=(s.mem.heap.alloc bytes).free (some s.mem.heap.next)}⟩
  | created : s.server.jobs[j]? = some job → s.mem.locals[j]? = some loc →
      after.jobs = s.server.jobs.set j {job with pc:=.record} →
      after.windows = ReplyWindow.createWindow s.server.windows job.h.cltNonce → job.pc = .window →
      Joint cfg s l ⟨after,window s.mem job.h.cltNonce⟩
  | answered : s.server.jobs[j]? = some job → s.mem.locals[j]? = some loc →
      after.jobs = s.server.jobs.set j (Rpcs.afterCheck job answer) →
      ReplyWindow.checkduplicateAndUpdate s.server.windows job.h.cltNonce job.h.xid job.h.xidRep = some (answer,after.windows) →
      job.pc = .check → Joint cfg s (.check j) ⟨after,check s.mem j job loc⟩
  | ran : s.server.jobs[j]? = some job → s.mem.locals[j]? = some loc → after.jobs = s.server.jobs.set j job' →
      after.windows = s.server.windows → job'.pdu = job.pdu → job.pc = .run → job'.pc = .add →
      Joint cfg s l ⟨after,takeBuf s.mem j loc job'.b1⟩
  | stored : s.server.jobs[j]? = some job → s.mem.locals[j]? = some loc →
      after.jobs = s.server.jobs.set j {job with pc:=.choose} →
      after.windows = ReplyWindow.addReply s.server.windows job.h.cltNonce job.h.xid job.b1 job.b1.length →
      job.pc = .add → job.h.cltNonce ≠ 0 → Joint cfg s l ⟨after,add s.mem job loc⟩
  | ended : s.server.jobs[j]? = some job → s.mem.locals[j]? = some loc →
      after.jobs = s.server.jobs.set j {job with pc:=.finished} → after.windows = s.server.windows →
      job.pc = .sendOld ∨ job.pc = .decref → Joint cfg s l ⟨after,finish s.mem j job loc⟩

def Aligned (s : State C) : Prop := s.mem.locals.length = s.server.jobs.length

omit [DecidableEq C] in
theorem Aligned.stands {j : Nat} (aligned : Aligned s) (held : s.server.jobs[j]? = some job) : ∃ loc, s.mem.locals[j]? = some loc := by
  have bound := (List.getElem?_eq_some_iff.mp held).1
  exact ⟨_,List.getElem?_eq_getElem (aligned ▸ bound)⟩

theorem start_joint (held : s.server.jobs[j]? = some job) (stands : s.mem.locals[j]? = some loc) (pc : job.pc = .start) :
    Joint cfg s label ⟨Rpcs.start cfg s.server j job,start cfg s.mem j job loc⟩ := by
  unfold Rpcs.start start
  by_cases bad : job.req.ok = false
  · rw [if_pos bad,if_pos bad]
    have unguarded : ¬ Guarded cfg job := fun guarded => Bool.false_ne_true (bad.symm.trans guarded.1)
    exact .passed held stands rfl rfl rfl rfl (.leave pc unguarded)
  · rw [if_neg bad,if_neg bad]
    by_cases stale : job.h.srvNonce ≠ 0 ∧ job.h.srvNonce ≠ cfg.nonce
    · rw [if_pos stale,if_pos stale]
      refine .opened held stands rfl rfl rfl pc (.inl ⟨rfl,rfl,rfl,fun guarded => ?_⟩)
      rcases guarded.2.1 with zero | own
      · exact stale.1 zero
      · exact stale.2 own
    · rw [if_neg stale,if_neg stale]
      have current : job.h.srvNonce = 0 ∨ job.h.srvNonce = cfg.nonce := by
        by_cases zero : job.h.srvNonce = 0
        · exact .inl zero
        · exact .inr (Classical.byContradiction fun other => stale ⟨zero,other⟩)
      by_cases unknown : (cfg.procs job.h.proc).isNone
      · rw [if_pos unknown,if_pos unknown]
        exact .refused held stands rfl rfl pc fun guarded => guarded.2.2.1 (Option.isNone_iff_eq_none.mp unknown)
      · rw [if_neg unknown,if_neg unknown]
        by_cases zero : job.h.cltNonce = 0
        · rw [if_pos zero,if_pos zero]
          exact .opened held stands rfl rfl rfl pc (.inr (.inl ⟨rfl,zero,rfl⟩))
        · rw [if_neg zero,if_neg zero]
          have good : job.req.ok = true := by simpa using bad
          have known : cfg.procs job.h.proc ≠ none := fun missing => unknown (Option.isNone_iff_eq_none.mpr missing)
          exact .opened held stands rfl rfl rfl pc (.inr (.inr ⟨rfl,⟨good,current,known,zero⟩,rfl⟩))

omit [DecidableEq C] in
theorem jobEffect_eq (held : s.server.jobs[j]? = some job) (stands : s.mem.locals[j]? = some loc) (own : label.job = some j)
    (after : Rpcs.State C) : effect cfg s after label = jobEffect cfg s.mem j job loc after label := by
  simp only [effect,own,held,stands]

omit [DecidableEq C] in
theorem run_effect {j : Nat} {after : Rpcs.State C} {jobs : List (Job C)} {job' : Job C} (replaced : after.jobs = jobs.set j job') (held : jobs[j]? = some job)
    (crashed : after.crashed = false) :
    jobEffect cfg s.mem j job loc after (.run j ret r) = takeBuf s.mem j loc job'.b1 := by
  have here : after.jobs[j]? = some job' := replaced ▸ Machine.entry_self held
  simp only [jobEffect,here,crashed,Bool.false_eq_true,if_false]

omit [DecidableEq C] in
theorem crash_effect {j : Nat} {after : Rpcs.State C} {job : Job C} (crashed : after.crashed = true) :
    jobEffect cfg s.mem j job loc after (.run j ret r) = s.mem := by
  unfold jobEffect
  dsimp only
  split
  · rw [if_pos crashed]
  · rfl

theorem step_joint (aligned : Aligned s) (taken : step cfg s label = some s') : Joint cfg s label s' := by
  obtain ⟨after,ran,rfl⟩ := Option.map_eq_some_iff.mp taken
  have found : ∀ j job, s.server.jobs[j]? = some job → label.job = some j →
      ∃ loc, s.mem.locals[j]? = some loc ∧ effect cfg s after label = jobEffect cfg s.mem j job loc after label :=
    fun j job held own => by
      obtain ⟨loc,stands⟩ := aligned.stands held
      exact ⟨loc,stands,jobEffect_eq held stands own after⟩
  have alive : s.server.crashed = false := Rpcs.step_alive ran
  cases Rpcs.step_sound ran with
  | accept | collect | dies | refuse | enqueue => exact .outside rfl rfl
  | take => exact .taken rfl rfl
  | @leave j job held pc | @stale j job held pc | @unguarded j job held pc | @guarded j job held pc =>
    obtain ⟨loc,stands,same⟩ := found j job held rfl
    obtain ⟨other,again,stepped⟩ := Rpcs.step_job rfl ran
    cases Option.some.inj (held.symm.trans again)
    simp only [Rpcs.stepJob,pc,if_true,Option.some.injEq] at stepped
    rw [same,← stepped]
    exact start_joint held stands pc
  | @window j job held pc =>
    obtain ⟨loc,stands,same⟩ := found j job held rfl
    rw [same]
    exact .created held stands rfl rfl pc
  | recordKept held pc | recordFirst held pc | recordOther held pc | recordCrash held pc =>
    obtain ⟨loc,stands,same⟩ := found _ _ held rfl
    rw [same]
    exact .passed held stands rfl rfl rfl rfl (.record pc)
  | check held pc answered =>
    obtain ⟨loc,stands,same⟩ := found _ _ held rfl
    rw [same]
    exact .answered held stands rfl answered pc
  | undecoded held pc | ran held pc =>
    obtain ⟨loc,stands,same⟩ := found _ _ held rfl
    rw [same.trans (run_effect rfl held alive)]
    exact .ran held stands rfl rfl rfl pc rfl
  | runCrash held =>
    obtain ⟨loc,stands,same⟩ := found _ _ held rfl
    rw [same.trans (crash_effect rfl)]
    exact .outside rfl rfl
  | add held pc nonzero =>
    obtain ⟨loc,stands,same⟩ := found _ _ held rfl
    rw [same]
    exact .stored held stands rfl rfl pc nonzero
  | @addNothing j job held pc zero =>
    obtain ⟨loc,stands,same⟩ := found _ _ held rfl
    have nothing : jobEffect cfg s.mem j job loc (Rpcs.setJob s.server j {job with pc:=.choose}) (.add j) = s.mem :=
      if_neg (by simp [zero])
    rw [same,nothing]
    exact .passed held stands rfl rfl rfl rfl (.added pc zero)
  | chooseKept held pc | chooseLatest held pc =>
    obtain ⟨loc,stands,same⟩ := found _ _ held rfl
    rw [same]
    exact .passed held stands rfl rfl rfl rfl (.chose pc)
  | chooseNull held | chooseMissing held =>
    obtain ⟨loc,stands,same⟩ := found _ _ held rfl
    rw [same]
    exact .outside rfl rfl
  | @send j job held pc =>
    obtain ⟨loc,stands,same⟩ := found _ _ held rfl
    simp only [jobEffect,pc,reduceCtorEq,if_false] at same
    rw [same]
    exact .passed held stands rfl rfl rfl rfl (.sent pc)
  | @sendOld j job held pc =>
    obtain ⟨loc,stands,same⟩ := found _ _ held rfl
    simp only [jobEffect,pc,if_true] at same
    rw [same]
    exact .ended held stands rfl rfl (.inl pc)
  | decref held pc =>
    obtain ⟨loc,stands,same⟩ := found _ _ held rfl
    rw [same]
    exact .ended held stands rfl rfl (.inr pc)

omit [DecidableEq C] in
theorem joint_aligned (aligned : Aligned s) (joint : Joint cfg s label s') : Aligned s' := by
  unfold Aligned at *
  cases joint with
  | outside jobs => rw [jobs]; exact aligned
  | taken jobs => simp [jobs,aligned]
  | passed _ _ jobs | refused _ _ jobs => simp [jobs,aligned]
  | opened _ _ jobs | ran _ _ jobs | ended _ _ jobs => simp [jobs,aligned,construct,takeBuf,finish,setLocal]
  | created _ _ jobs =>
    unfold window
    split <;> simp [jobs,aligned]
  | answered _ _ jobs =>
    unfold check
    split <;> simp [jobs,aligned,setLocal]
  | stored _ _ jobs =>
    unfold add
    split <;> simp [jobs,aligned]

end Joint
end YfsLab.ReplyBuffers
