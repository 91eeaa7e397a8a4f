import YfsLab.ReplyBuffers

namespace YfsLab.BufferOwners
open ReplyWindow (RpcstateT)
open Rpcs (Job Pc Config)
open ReplyBuffers

-- The buffers dispatch has to free, those the window has to free, and the ones
-- nobody can free any more.
def owns (loc : Local) : List Nat := loc.rep.toList ++ (if loc.stat = some .NEW then loc.b1.toList else [])

def windowHandles (windows : Windows) : List Nat := windows.entries.flatMap fun client => handles client.2

def owned (m : Mem) : List Nat := windowHandles m.windows ++ (m.locals.flatMap owns ++ m.lost)

variable {C : Type} {cfg : Config} {s s' : State C} {label : Rpcs.Label C} {m : Mem} {heap heap' : Memory}

def Holds (heap : Memory) (p : Option Nat) (bytes : List UInt8) : Prop := p.bind heap.read = some bytes

-- Which variables a dispatch has set by where it stands, and that the buffers
-- it is going to send hold what the server's model says. A DONE reply is not
-- its own.
def Answers (heap : Memory) (job : Job C) (loc : Local) : Prop :=
  match loc.stat with
  | some .NEW => loc.rep = none ∧ Holds heap loc.b1 job.b1 ∧ loc.sz1 = job.b1.length
  | some .DONE => loc.rep ≠ none
  | some .FORGOTTEN => Holds heap loc.rep job.b1 ∧ loc.b1 = none
  | some .INPROGRESS => loc.rep ≠ none ∧ loc.b1 = none ∧ job.pc = .decref
  | none => False

def Stands (heap : Memory) (job : Job C) (loc : Local) : Prop :=
  match job.pc with
  | .start | .finished => loc.rep = none ∧ loc.b1 = none
  | .sendOld => Holds heap loc.rep job.b1 ∧ loc.b1 = none
  | .window | .record | .check => loc.rep ≠ none ∧ loc.b1 = none
  | .run => loc.rep ≠ none ∧ loc.b1 = none ∧ loc.stat = some .NEW
  | .add | .choose => loc.stat = some .NEW ∧ Answers heap job loc
  | .send | .decref => Answers heap job loc

theorem Holds.kept (same : ∀ q, p = some q → heap'.read q = heap.read q) (holds : Holds heap p bytes) : Holds heap' p bytes := by
  cases p with
  | none => cases holds
  | some q => exact (same q rfl).trans holds

theorem Answers.kept {job : Job C} {loc : Local} (same : ∀ q ∈ owns loc, heap'.read q = heap.read q)
    (answers : Answers heap job loc) : Answers heap' job loc := by
  have rep : ∀ q, loc.rep = some q → heap'.read q = heap.read q := fun q here =>
    same q (List.mem_append_left _ (by simp [here]))
  have b1 : loc.stat = some .NEW → ∀ q, loc.b1 = some q → heap'.read q = heap.read q := fun new q here =>
    same q (List.mem_append_right _ (by simp [new,here]))
  unfold Answers at *
  split at answers
  · rename_i new
    exact ⟨answers.1,answers.2.1.kept (b1 new),answers.2.2⟩
  · exact answers
  · exact ⟨answers.1.kept rep,answers.2⟩
  · exact answers
  · exact answers

theorem Stands.kept {job : Job C} {loc : Local} (same : ∀ q ∈ owns loc, heap'.read q = heap.read q)
    (stands : Stands heap job loc) : Stands heap' job loc := by
  unfold Stands at *
  split at stands
  · exact stands
  · exact stands
  · refine ⟨stands.1.kept fun q here => same q (List.mem_append_left _ ?_),stands.2⟩
    simp [here]
  · exact stands
  · exact stands
  · exact stands
  · exact stands
  · exact ⟨stands.1,stands.2.kept same⟩
  · exact ⟨stands.1,stands.2.kept same⟩
  · exact stands.kept same
  · exact stands.kept same

-- What the server's model and the memory have in common at all times.
structure Kept (s : State C) : Prop where
  aligned : Aligned s
  owned : s.mem.heap.Owned (owned s.mem)
  stands : ∀ (j : Nat) job loc, s.server.jobs[j]? = some job → s.mem.locals[j]? = some loc → Stands s.mem.heap job loc
  mirror : ∀ clt, s.server.windows clt = (s.mem.windows.find clt).map (List.map (Entry.view s.mem.heap))

section Ownership
variable {j : Nat} {job : Job C} {loc new : Local}

theorem owned_apart (held : m.locals[j]? = some loc) : ∃ others, (owned m).Perm (owns loc ++ others) ∧
    ∀ (m' : Mem) new gone, m'.windows = m.windows → m'.locals = m.locals.set j new → m'.lost = m.lost ++ gone →
      (owned m').Perm (owns new ++ (gone ++ others)) := by
  obtain ⟨rest,before,after⟩ := Heap.flatMap_set owns held
  refine ⟨windowHandles m.windows ++ (rest ++ m.lost),List.perm_iff_count.mpr fun p => ?_,
    fun m' new gone windows locals lost => List.perm_iff_count.mpr fun p => ?_⟩
  · have was := before.count_eq p
    simp only [owned,List.count_append] at *
    omega
  · have now := (after new).count_eq p
    simp only [owned,windows,locals,lost,List.count_append] at *
    omega

theorem construct_owned (whole : m.heap.Owned (owned m)) (held : m.locals[j]? = some loc) (nothing : loc.rep = none ∧ loc.b1 = none)
    (bytes : List UInt8) (stat : Option RpcstateT) :
    (construct m j loc bytes stat).heap.Owned (owned (construct m j loc bytes stat)) := by
  obtain ⟨others,before,after⟩ := owned_apart held
  have gave : owns loc = [] := by simp [owns,nothing]
  have gets : owns {loc with rep:=some m.heap.next,stat} = [m.heap.next] := by simp [owns,nothing]
  have now := after (construct m j loc bytes stat) _ [] rfl rfl (List.append_nil _).symm
  rw [gets] at now
  rw [gave] at before
  exact ((whole.perm before).alloc bytes).perm now.symm

theorem takeBuf_owned (whole : m.heap.Owned (owned m)) (held : m.locals[j]? = some loc)
    (running : loc.b1 = none ∧ loc.stat = some .NEW) (bytes : List UInt8) :
    (takeBuf m j loc bytes).heap.Owned (owned (takeBuf m j loc bytes)) := by
  obtain ⟨others,before,after⟩ := owned_apart held
  have written : (takeBuf m j loc bytes).heap.Owned (owned m) := by
    cases here : loc.rep with
    | none => simpa [takeBuf,setLocal,here] using whole
    | some p => simpa [takeBuf,setLocal,here] using whole.write p bytes
  have moved : owns {loc with rep:=none,b1:=loc.rep,sz1:=bytes.length} = owns loc := by simp [owns,running]
  have now := after (takeBuf m j loc bytes) _ [] rfl rfl (List.append_nil _).symm
  rw [moved] at now
  exact written.perm (before.trans now.symm)

theorem freeing_owned {rest : List Nat} (p : Option Nat) (whole : heap.Owned (p.toList ++ rest)) : (heap.free p).Owned rest := by
  cases p with
  | none => exact whole
  | some p => exact whole.free

theorem finish_owned (whole : m.heap.Owned (owned m)) (held : m.locals[j]? = some loc) (job : Job C) :
    (finish m j job loc).heap.Owned (owned (finish m j job loc)) := by
  obtain ⟨others,before,after⟩ := owned_apart held
  have gone : owns {loc with rep:=none,b1:=none} = [] := by simp [owns]
  have now := fun lost => after (finish m j job loc) {loc with rep:=none,b1:=none} lost rfl rfl
  simp only [gone,List.nil_append] at now
  have mine := whole.perm before
  by_cases new : loc.stat = some .NEW
  · have gave : owns loc = loc.rep.toList ++ loc.b1.toList := by simp [owns,new]
    rw [gave,List.append_assoc] at mine
    by_cases zero : job.h.cltNonce = 0
    · have frees : loc.stat = some .NEW ∧ job.h.cltNonce = 0 := ⟨new,zero⟩
      have keeps : ¬ (loc.stat = some .NEW ∧ job.h.cltNonce ≠ 0) := fun both => both.2 zero
      have left := now [] (by simp only [finish,setLocal,if_neg keeps,List.append_nil])
      simp only [finish,setLocal,if_pos frees,if_neg keeps] at left ⊢
      apply Heap.Owned.perm _ left.symm
      apply freeing_owned
      apply freeing_owned
      exact mine.perm (List.perm_append_comm_assoc _ _ _)
    · have keeps : ¬ (loc.stat = some .NEW ∧ job.h.cltNonce = 0) := fun both => zero both.2
      have loses : loc.stat = some .NEW ∧ job.h.cltNonce ≠ 0 := ⟨new,zero⟩
      have left := now loc.b1.toList (by simp only [finish,setLocal,if_pos loses])
      simp only [finish,setLocal,if_neg keeps,if_pos loses] at left ⊢
      apply Heap.Owned.perm _ left.symm
      exact freeing_owned _ mine
  · have gave : owns loc = loc.rep.toList := by simp [owns,new]
    rw [gave] at mine
    have neither : ∀ nonce : Prop, ¬ (loc.stat = some .NEW ∧ nonce) := fun _ both => new both.1
    have left := now [] (by simp only [finish,setLocal,if_neg (neither _),List.append_nil])
    simp only [finish,setLocal,if_neg (neither _)] at left ⊢
    apply Heap.Owned.perm _ left.symm
    exact freeing_owned _ mine

theorem window_owned (whole : m.heap.Owned (owned m)) (clt : UInt32) :
    (window m clt).heap.Owned (owned (window m clt)) := by
  unfold window
  split
  · rename_i missing
    obtain ⟨others,before,after⟩ := OrderedMap.flatMap_assign m.windows handles clt
    rw [missing] at before
    have same := (after []).trans before.symm
    refine whole.perm (List.perm_iff_count.mpr fun p => ?_)
    have counted := same.count_eq p
    simp only [owned,windowHandles,List.count_append] at *
    omega
  · exact whole

theorem assign_handles (windows : Windows) (clt : UInt32) : ∃ others,
    (windowHandles windows).Perm (handles ((windows.find clt).getD []) ++ others) ∧
      ∀ entries, (windowHandles (windows.assign clt entries)).Perm (handles entries ++ others) := by
  obtain ⟨others,before,after⟩ := OrderedMap.flatMap_assign windows handles clt
  refine ⟨others,?_,after⟩
  cases found : windows.find clt with
  | none => rw [found] at before; exact before
  | some entries => rw [found] at before; exact before

theorem handles_append (front rest : List Entry) : handles (front ++ rest) = handles front ++ handles rest :=
  List.filterMap_append

theorem handles_cons (it : Entry) (rest : List Entry) : handles (it :: rest) = it.buf.toList ++ handles rest := by
  unfold handles
  cases here : it.buf with
  | none => rw [List.filterMap_cons_none here]; rfl
  | some p => rw [List.filterMap_cons_some here]; rfl

theorem answered_owns (nothing : loc.b1 = none) (heap : Memory) (job : Job C) (answer : Answer) :
    owns (answered heap job loc answer).2 = loc.rep.toList := by
  unfold answered
  split <;> simp [owns,nothing]

theorem answered_owned {rest : List Nat} (whole : heap.Owned rest) (job : Job C) (loc : Local) (answer : Answer) :
    (answered heap job loc answer).1.Owned rest := by
  unfold answered
  split
  · exact whole
  · cases loc.rep with
    | none => exact whole
    | some p => exact whole.write p _
  · exact whole

theorem pruned_owned (whole : m.heap.Owned (owned m)) (found : m.windows.find clt = some entries) (xid xidRep : UInt32) :
    (checkduplicateAndUpdate xid xidRep m.heap entries).2.1.Owned
      (owned {m with windows:=m.windows.assign clt (checkduplicateAndUpdate xid xidRep m.heap entries).2.2}) := by
  obtain ⟨others,before,after⟩ := assign_handles m.windows clt
  rw [found,Option.getD_some] at before
  rw [check_heap]
  refine Heap.Owned.freeAll (whole.perm (List.perm_iff_count.mpr fun p => ?_))
  have was := before.count_eq p
  have now := (after (checkduplicateAndUpdate xid xidRep m.heap entries).2.2).count_eq p
  have split := (check_kept xid xidRep m.heap entries).count_eq p
  have same : ((pruned xid xidRep entries).map Entry.buf).filterMap id = handles (pruned xid xidRep entries) := by
    simp [handles,List.filterMap_map]
  rw [same]
  simp only [owned,List.count_append] at *
  omega

theorem check_owned (whole : m.heap.Owned (owned m)) (held : m.locals[j]? = some loc) (nothing : loc.b1 = none) (job : Job C) :
    (check m j job loc).heap.Owned (owned (check m j job loc)) := by
  cases known : m.windows.find job.h.cltNonce with
  | none =>
    simp only [check,known]
    exact whole
  | some entries =>
    have left := pruned_owned whole known job.h.xid job.h.xidRep
    obtain ⟨result,same,checked⟩ := check_known j loc known
    rw [← same] at left
    obtain ⟨others,before,after⟩ := owned_apart (m:={m with windows:=m.windows.assign job.h.cltNonce result.2.2}) held
    have now := after (check m j job loc) (answered result.2.1 job loc result.1).2 [] (by rw [checked]; rfl) (by rw [checked]; rfl)
      (by rw [checked]; exact (List.append_nil _).symm)
    have keeps : owns loc = loc.rep.toList := by simp [owns,nothing]
    rw [answered_owns nothing,← keeps] at now
    rw [checked] at now ⊢
    exact (answered_owned left job loc result.1).perm (before.trans now.symm)

theorem add_owned (whole : m.heap.Owned (owned m)) (job : Job C) (loc : Local) :
    (add m job loc).heap.Owned (owned (add m job loc)) := by
  unfold add
  split
  · obtain ⟨others,before,after⟩ := assign_handles m.windows job.h.cltNonce
    generalize (m.windows.find job.h.cltNonce).getD [] = entries at before ⊢
    dsimp only
    generalize content m.heap loc.b1 = b
    cases found : entries.find? fun it => it.xid = job.h.xid with
    | none =>
      rw [addReply_missing b loc.sz1 found]
      refine whole.perm (List.perm_iff_count.mpr fun p => ?_)
      have was := before.count_eq p
      have now := (after entries).count_eq p
      simp only [owned,List.count_append,Option.bind_none,Option.toList_none,List.count_nil] at *
      omega
    | some old =>
      obtain ⟨front,rest,rfl,_,_,added⟩ := addReply_found b loc.sz1 found
      rw [added]
      refine (whole.alloc (b.take loc.sz1)).perm (List.perm_iff_count.mpr fun p => ?_)
      have was := before.count_eq p
      have now := (after (front ++ {old with buf:=some m.heap.next,sz:=loc.sz1,cbPresent:=true} :: rest)).count_eq p
      simp only [owned,handles_append,handles_cons,List.count_append,List.count_cons,List.count_nil,Option.bind_some,
        Option.toList_some] at *
      omega
  · exact whole

end Ownership

-- What a step leaves as it was. A valid handle is not given out again, and what
-- dispatch j frees or writes is its own or the window's.
section Frame
variable {j p : Nat} {job : Job C} {loc new : Local}

theorem alloc_read {valid : List Nat} (whole : heap.Owned valid) (member : p ∈ valid) (bytes : List UInt8) :
    (heap.alloc bytes).read p = heap.read p := by
  have bound := Heap.read_bound (whole.mem.mp member)
  rw [Heap.read_alloc,if_neg (Nat.ne_of_lt bound)]

theorem write_read (other : loc.rep ≠ some p) (bytes : List UInt8) :
    (loc.rep.elim heap (heap.write · bytes)).read p = heap.read p := by
  cases here : loc.rep with
  | none => rfl
  | some q =>
    have different : p ≠ q := fun same => other (by rw [here,same])
    exact (Heap.read_write heap q p bytes).trans (if_neg fun both => different both.1)

theorem free_read {pointer : Option Nat} (other : pointer ≠ some p) : (heap.free pointer).read p = heap.read p := by
  cases pointer with
  | none => rfl
  | some q =>
    have different : p ≠ q := fun same => other (by rw [same])
    rw [Heap.read_free,if_neg different]

theorem rep_owned (here : loc.rep = some p) : p ∈ owns loc := List.mem_append_left _ (by simp [here])

theorem finish_read (other : p ∉ owns loc) (m : Mem) (j : Nat) (job : Job C) : (finish m j job loc).heap.read p = m.heap.read p := by
  have rep : loc.rep ≠ some p := fun here => other (rep_owned here)
  simp only [finish,setLocal]
  rw [free_read rep]
  split
  · rename_i frees
    exact free_read fun here => other (List.mem_append_right _ (by simp [frees.1,here]))
  · rfl

theorem answered_read (other : loc.rep ≠ some p) (job : Job C) (answer : Answer) :
    (answered heap job loc answer).1.read p = heap.read p := by
  unfold answered
  split
  · rfl
  · exact write_read other _
  · rfl

theorem local_member (held : m.locals[j]? = some loc) (mine : p ∈ owns loc) : p ∈ m.locals.flatMap owns :=
  List.mem_flatMap.mpr ⟨loc,List.mem_of_getElem? held,mine⟩

theorem local_owned (member : p ∈ m.locals.flatMap owns) : p ∈ owned m :=
  List.mem_append_right _ (List.mem_append_left _ member)

theorem window_locals (m : Mem) (clt : UInt32) : (window m clt).locals = m.locals := by
  unfold window
  split <;> rfl

theorem window_heap (m : Mem) (clt : UInt32) : (window m clt).heap = m.heap := by
  unfold window
  split <;> rfl

theorem add_locals (m : Mem) (job : Job C) (loc : Local) : (add m job loc).locals = m.locals := by
  unfold add
  split <;> rfl

theorem window_owned_handle (member : p ∈ windowHandles m.windows) : p ∈ owned m := List.mem_append_left _ member

theorem window_apart (whole : m.heap.Owned (owned m)) (member : p ∈ windowHandles m.windows) : p ∉ m.locals.flatMap owns :=
  fun mine => (List.nodup_append.mp whole.nodup).2.2 p member p (List.mem_append_left _ mine) rfl

theorem found_handles (windows : Windows) (found : windows.find clt = some entries) (member : p ∈ handles entries) :
    p ∈ windowHandles windows := by
  obtain ⟨others,before,_⟩ := assign_handles windows clt
  rw [found] at before
  exact before.mem_iff.mpr (List.mem_append_left _ member)

theorem view_kept {entries : List Entry} (same : ∀ p ∈ handles entries, heap'.read p = heap.read p) :
    entries.map (Entry.view heap') = entries.map (Entry.view heap) := by
  refine List.map_congr_left fun it member => ?_
  have content_kept : content heap' it.buf = content heap it.buf := by
    cases here : it.buf with
    | none => rfl
    | some p => exact congrArg (·.getD []) (same p (List.mem_filterMap.mpr ⟨it,member,here⟩))
  simp only [Entry.view,content_kept]

theorem check_read (whole : m.heap.Owned (owned m)) (member : p ∈ m.locals.flatMap owns) (other : p ∉ owns loc) (j : Nat)
    (job : Job C) : (check m j job loc).heap.read p = m.heap.read p := by
  unfold check
  split
  · rfl
  · rename_i entries found
    have freed := check_heap job.h.xid job.h.xidRep m.heap entries
    have split := check_kept job.h.xid job.h.xidRep m.heap entries
    generalize checkduplicateAndUpdate job.h.xid job.h.xidRep m.heap entries = result at freed split ⊢
    have kept : some p ∉ (pruned job.h.xid job.h.xidRep entries).map Entry.buf := fun gone => by
      obtain ⟨it,inside,here⟩ := List.mem_map.mp gone
      have erased : p ∈ handles (pruned job.h.xid job.h.xidRep entries) := List.mem_filterMap.mpr ⟨it,inside,here⟩
      have stored : p ∈ handles entries := split.mem_iff.mpr (List.mem_append_left _ erased)
      exact window_apart whole (found_handles m.windows found stored) member
    refine (answered_read (fun here => other (rep_owned here)) job result.1).trans ?_
    rw [freed,Heap.read_freeAll kept]

theorem addReply_read {xid : UInt32} {b : List UInt8} {sz : Nat} {entries : List Entry} (given : p < heap.next) :
    (addReply xid b sz heap entries).1.read p = heap.read p := by
  cases found : entries.find? fun it => it.xid = xid with
  | none => rw [addReply_missing b sz found]
  | some old =>
    obtain ⟨front,rest,_,_,_,added⟩ := addReply_found b sz found
    rw [added]
    exact (Heap.read_alloc heap _ p).trans (if_neg (Nat.ne_of_lt given))

theorem add_read (given : p < m.heap.next) (job : Job C) (loc : Local) : (add m job loc).heap.read p = m.heap.read p := by
  unfold add
  split
  · exact addReply_read given
  · rfl

theorem owned_given (whole : m.heap.Owned (owned m)) (member : p ∈ owned m) : p < m.heap.next :=
  Heap.read_bound (whole.mem.mp member)

end Frame

section Steps
variable {j : Nat} {job job' : Job C} {loc new : Local}

theorem each_stands (kept : Kept s) (held : s.server.jobs[j]? = some job) (standing : s.mem.locals[j]? = some loc)
    (frame : ∀ p ∈ s.mem.locals.flatMap owns, p ∉ owns loc → heap'.read p = s.mem.heap.read p)
    (here : Stands heap' job' new) (k : Nat) (other : Job C) (its : Local)
    (found : (s.server.jobs.set j job')[k]? = some other) (stood : (s.mem.locals.set j new)[k]? = some its) :
    Stands heap' other its := by
  rcases Machine.pair_cases found stood with ⟨rfl,rfl,rfl⟩ | ⟨different,before,its_before⟩
  · exact here
  · have once : (s.mem.locals.flatMap owns).Nodup :=
      ((kept.owned.nodup.sublist (List.sublist_append_right _ _)).sublist (List.sublist_append_left _ _))
    refine (kept.stands k other its before its_before).kept fun p mine => ?_
    exact frame p (local_member its_before mine) (Heap.owners_apart once its_before standing different p mine)

theorem same_locals (standing : m.locals[j]? = some loc) : m.locals.set j loc = m.locals := by
  obtain ⟨inside,rfl⟩ := List.getElem?_eq_some_iff.mp standing
  exact List.set_getElem_self inside

theorem Answers.moves (answers : Answers heap job loc) (b1 : job'.b1 = job.b1) (pc : job.pc = .decref → job'.pc = .decref) :
    Answers heap job' loc := by
  unfold Answers at *
  rw [b1]
  split at answers
  · exact answers
  · exact answers
  · exact answers
  · exact ⟨answers.1,answers.2.1,pc answers.2.2⟩
  · exact answers

theorem passes_stands (stands : Stands heap job loc) (b1 : job'.b1 = job.b1) (passes : Passes cfg job job'.pc) :
    Stands heap job' loc := by
  unfold Stands at stands ⊢
  generalize job'.pc = after at passes
  cases passes with
  | leave pc => rw [pc] at stands; exact stands
  | record pc => rw [pc] at stands; exact stands
  | added pc =>
    rw [pc] at stands
    exact ⟨stands.1,stands.2.moves b1 fun wrong => by rw [pc] at wrong; cases wrong⟩
  | chose pc =>
    rw [pc] at stands
    exact stands.2.moves b1 fun wrong => by rw [pc] at wrong; cases wrong
  | sent pc =>
    rw [pc] at stands
    exact stands.moves b1 fun wrong => by rw [pc] at wrong; cases wrong

theorem start_nothing (stands : Stands heap job loc) (pc : job.pc = .start) : loc.rep = none ∧ loc.b1 = none := by
  unfold Stands at stands
  rw [pc] at stands
  exact stands

theorem window_nothing (stands : Stands heap job loc) (pc : job.pc = .window) : loc.rep ≠ none ∧ loc.b1 = none := by
  unfold Stands at stands
  rw [pc] at stands
  exact stands

theorem check_nothing (stands : Stands heap job loc) (pc : job.pc = .check) : loc.rep ≠ none ∧ loc.b1 = none := by
  unfold Stands at stands
  rw [pc] at stands
  exact stands

theorem run_nothing (stands : Stands heap job loc) (pc : job.pc = .run) : loc.rep ≠ none ∧ loc.b1 = none ∧ loc.stat = some .NEW := by
  unfold Stands at stands
  rw [pc] at stands
  exact stands

theorem add_answers (stands : Stands heap job loc) (pc : job.pc = .add) : loc.stat = some .NEW ∧ Answers heap job loc := by
  unfold Stands at stands
  rw [pc] at stands
  exact stands

theorem opened_stands (nothing : loc.rep = none ∧ loc.b1 = none)
    (opens : Opens cfg job job' bytes stat) :
    Stands (m.heap.alloc bytes) job' {loc with rep:=some m.heap.next,stat} := by
  unfold Stands
  rcases opens with ⟨pc,b1,_,_⟩ | ⟨pc,_,new⟩ | ⟨pc,_,_⟩
  · rw [pc]
    refine ⟨?_,nothing.2⟩
    rw [b1]
    exact (Heap.read_alloc m.heap bytes _).trans (if_pos rfl)
  · rw [pc]
    exact ⟨by simp,nothing.2,new⟩
  · rw [pc]
    exact ⟨by simp,nothing.2⟩

theorem written_holds (whole : heap.Owned valid) (mine : ∀ p, loc.rep = some p → p ∈ valid) (constructed : loc.rep ≠ none)
    (bytes : List UInt8) : Holds (loc.rep.elim heap (heap.write · bytes)) loc.rep bytes := by
  cases here : loc.rep with
  | none => exact absurd here constructed
  | some p =>
    have live := whole.mem.mp (mine p here)
    exact (Heap.read_write heap p p bytes).trans (if_pos ⟨rfl,live⟩)

theorem check_agrees (kept : Kept s)
    (answered : ReplyWindow.checkduplicateAndUpdate s.server.windows clt xid xidRep = some (answer,windows)) :
    ∃ entries, s.mem.windows.find clt = some entries ∧
      answer = (checkduplicateAndUpdate xid xidRep s.mem.heap entries).1.view s.mem.heap ∧
      windows = s.server.windows.put clt
        ((checkduplicateAndUpdate xid xidRep s.mem.heap entries).2.2.map (Entry.view s.mem.heap)) := by
  have same := kept.mirror clt
  unfold ReplyWindow.checkduplicateAndUpdate at answered
  cases found : s.mem.windows.find clt with
  | none =>
    rw [same,found] at answered
    cases answered
  | some entries =>
    rw [same,found] at answered
    dsimp only [Option.map_some] at answered
    rw [check_view xid xidRep s.mem.heap s.mem.heap entries] at answered
    obtain ⟨rfl,rfl⟩ := Prod.mk.inj (Option.some.inj answered)
    exact ⟨entries,rfl,rfl,rfl⟩

theorem answered_stands (whole : heap.Owned valid) (mine : ∀ p, loc.rep = some p → p ∈ valid)
    (nothing : loc.rep ≠ none ∧ loc.b1 = none) (before : Memory) (answer : Answer) :
    Stands (answered heap job loc answer).1 (Rpcs.afterCheck job (answer.view before)) (answered heap job loc answer).2 := by
  obtain ⟨stat,out⟩ := answer
  cases stat with
  | NEW => exact ⟨nothing.1,nothing.2,rfl⟩
  | INPROGRESS => exact ⟨nothing.1,nothing.2,rfl⟩
  | DONE => exact nothing.1
  | FORGOTTEN => exact ⟨written_holds whole mine nothing.1 _,nothing.2⟩

theorem check_stands (kept : Kept s) (held : s.server.jobs[j]? = some job) (standing : s.mem.locals[j]? = some loc)
    (pc : job.pc = .check)
    (answered : ReplyWindow.checkduplicateAndUpdate s.server.windows job.h.cltNonce job.h.xid job.h.xidRep =
      some (answer,windows)) (k : Nat) (other : Job C) (its : Local)
    (found : (s.server.jobs.set j (Rpcs.afterCheck job answer))[k]? = some other)
    (stood : (check s.mem j job loc).locals[k]? = some its) : Stands (check s.mem j job loc).heap other its := by
  obtain ⟨entries,known,rfl,_⟩ := check_agrees kept answered
  have nothing := check_nothing (kept.stands j job loc held standing) pc
  have frame : ∀ p ∈ s.mem.locals.flatMap owns, p ∉ owns loc → (check s.mem j job loc).heap.read p = s.mem.heap.read p :=
    fun p member mine => check_read kept.owned member mine j job
  simp only [check,known] at stood frame ⊢
  refine each_stands kept held standing frame ?_ k other its found stood
  refine answered_stands (pruned_owned kept.owned known job.h.xid job.h.xidRep) (fun p here => ?_) nothing s.mem.heap _
  exact local_owned (local_member standing (rep_owned here))

end Steps

section Mirror
variable {j : Nat} {job : Job C} {loc : Local} {after : Rpcs.State C}

def Mirrors (windows : ReplyWindow.Windows) (m : Mem) : Prop :=
  ∀ clt, windows clt = (m.windows.find clt).map (List.map (Entry.view m.heap))

theorem mirror_same {windows : ReplyWindow.Windows} {m' : Mem} (mirror : Mirrors windows m) (same : m'.windows = m.windows)
    (frame : ∀ p ∈ windowHandles m.windows, m'.heap.read p = m.heap.read p) : Mirrors windows m' := by
  intro clt
  rw [mirror clt,same]
  cases found : m.windows.find clt with
  | none => rfl
  | some entries =>
    exact congrArg some (view_kept fun p member => frame p (found_handles m.windows found member)).symm

theorem mirror_assign {windows : ReplyWindow.Windows} (mirror : Mirrors windows m) (clt : UInt32) (entries : List Entry)
    (frame : ∀ p ∈ windowHandles (m.windows.assign clt entries), p ∈ windowHandles m.windows → heap.read p = m.heap.read p)
    (m' : Mem) (assigned : m'.windows = m.windows.assign clt entries) (memory : m'.heap = heap) :
    Mirrors (windows.put clt (entries.map (Entry.view heap))) m' := by
  intro other
  rw [assigned,memory]
  by_cases same : other = clt
  · rw [same,ReplyWindow.put_self,OrderedMap.find_assign_self]
    rfl
  · rw [ReplyWindow.put_other same,OrderedMap.find_assign_other _ same,mirror other]
    cases found : m.windows.find other with
    | none => rfl
    | some there =>
      have again : (m.windows.assign clt entries).find other = some there :=
        (OrderedMap.find_assign_other _ same).trans found
      exact congrArg some (view_kept fun p member =>
        frame p (found_handles _ again member) (found_handles _ found member)).symm

theorem window_mirror {windows : ReplyWindow.Windows} (mirror : Mirrors windows m) (clt : UInt32) :
    Mirrors (ReplyWindow.createWindow windows clt) (window m clt) := by
  have known := mirror clt
  unfold ReplyWindow.createWindow window
  cases found : m.windows.find clt with
  | none =>
    rw [found] at known
    simp only [known,Option.map_none]
    exact mirror_assign mirror clt [] (fun _ _ _ => rfl) _ rfl rfl
  | some entries =>
    rw [found] at known
    simp only [known,Option.map_some]
    exact mirror

theorem pruned_read (whole : m.heap.Owned (owned m)) (found : m.windows.find clt = some entries) (xid xidRep : UInt32)
    (member : p ∈ windowHandles (m.windows.assign clt (checkduplicateAndUpdate xid xidRep m.heap entries).2.2)) :
    (checkduplicateAndUpdate xid xidRep m.heap entries).2.1.read p = m.heap.read p := by
  have live := (pruned_owned whole found xid xidRep).mem.mp (List.mem_append_left _ member)
  rw [check_heap] at live ⊢
  refine Heap.read_freeAll fun freed => ?_
  rw [Heap.read_freeAll_gone freed] at live
  cases live

theorem check_window_read (whole : m.heap.Owned (owned m)) (standing : m.locals[j]? = some loc) (job : Job C)
    (member : p ∈ windowHandles (check m j job loc).windows) : (check m j job loc).heap.read p = m.heap.read p := by
  cases known : m.windows.find job.h.cltNonce with
  | none => simp only [check,known]
  | some entries =>
    have left := pruned_owned whole known job.h.xid job.h.xidRep
    have frame := fun p => pruned_read (p:=p) whole known job.h.xid job.h.xidRep
    simp only [check,known] at member ⊢
    generalize checkduplicateAndUpdate job.h.xid job.h.xidRep m.heap entries = result at left frame member ⊢
    obtain ⟨answer,heap,entries'⟩ := result
    refine (answered_read (fun here => ?_) job answer).trans (frame p member)
    exact window_apart (m:={m with heap,windows:=m.windows.assign job.h.cltNonce entries'}) left member
      (local_member standing (rep_owned here))

theorem check_mirror (kept : Kept s) (standing : s.mem.locals[j]? = some loc)
    (answered : ReplyWindow.checkduplicateAndUpdate s.server.windows job.h.cltNonce job.h.xid job.h.xidRep =
      some (answer,windows)) : Mirrors windows (check s.mem j job loc) := by
  obtain ⟨entries,known,_,rfl⟩ := check_agrees kept answered
  have reads := fun p => check_window_read (p:=p) kept.owned standing job
  simp only [check,known] at reads ⊢
  generalize checkduplicateAndUpdate job.h.xid job.h.xidRep s.mem.heap entries = result at reads ⊢
  obtain ⟨answer,heap,entries'⟩ := result
  have shown : entries'.map (Entry.view s.mem.heap) =
      entries'.map (Entry.view (ReplyBuffers.answered heap job loc answer).1) :=
    (view_kept fun p member => reads p (found_handles _ (OrderedMap.find_assign_self _ _ _) member)).symm
  rw [shown]
  exact mirror_assign kept.mirror job.h.cltNonce entries' (fun p member _ => reads p member) _ rfl rfl

theorem addReply_view {entries : List Entry} (valid : ∀ p ∈ handles entries, (heap.read p).isSome) (xid : UInt32)
    (b : List UInt8) (sz : Nat) :
    (addReply xid b sz heap entries).2.map (Entry.view (addReply xid b sz heap entries).1) =
      ReplyWindow.store xid b sz (entries.map (Entry.view heap)) := by
  induction entries with
  | nil => rfl
  | cons it rest ih =>
    rw [handles_cons] at valid
    have behind : ∀ p ∈ handles rest, (heap.read p).isSome := fun p member => valid p (List.mem_append_right _ member)
    simp only [addReply,List.map_cons,ReplyWindow.store,Entry.view]
    by_cases own : it.xid = xid
    · rw [if_pos own,if_pos own]
      have kept : rest.map (Entry.view (heap.alloc (b.take sz))) = rest.map (Entry.view heap) := view_kept fun p member =>
        (Heap.read_alloc heap _ p).trans (if_neg (Nat.ne_of_lt (Heap.read_bound (behind p member))))
      have stored : content (heap.alloc (b.take sz)) (some heap.next) = b.take sz := by
        simp [content,Heap.read_alloc]
      simp only [List.map_cons,Entry.view,stored]
      exact congrArg _ kept
    · rw [if_neg own,if_neg own]
      have kept : content (addReply xid b sz heap rest).1 it.buf = content heap it.buf := by
        cases here : it.buf with
        | none => rfl
        | some p => exact congrArg (·.getD []) (addReply_read (Heap.read_bound (valid p (List.mem_append_left _ (by simp [here])))))
      simp only [List.map_cons,Entry.view,kept,ih behind]

theorem answers_new (answers : Answers heap job loc) (new : loc.stat = some .NEW) :
    loc.rep = none ∧ Holds heap loc.b1 job.b1 ∧ loc.sz1 = job.b1.length := by
  unfold Answers at answers
  rw [new] at answers
  exact answers

theorem add_mirror (kept : Kept s) (held : s.server.jobs[j]? = some job) (standing : s.mem.locals[j]? = some loc)
    (pc : job.pc = .add) (nonzero : job.h.cltNonce ≠ 0) :
    Mirrors (ReplyWindow.addReply s.server.windows job.h.cltNonce job.h.xid job.b1 job.b1.length) (add s.mem job loc) := by
  obtain ⟨new,answers⟩ := add_answers (kept.stands j job loc held standing) pc
  obtain ⟨_,holds,size⟩ := answers_new answers new
  have bytes : content s.mem.heap loc.b1 = job.b1 := congrArg (·.getD []) holds
  have shown : (s.server.windows job.h.cltNonce).getD [] =
      ((s.mem.windows.find job.h.cltNonce).getD []).map (Entry.view s.mem.heap) := by
    rw [kept.mirror]
    cases s.mem.windows.find job.h.cltNonce <;> rfl
  have valid : ∀ p ∈ handles ((s.mem.windows.find job.h.cltNonce).getD []), (s.mem.heap.read p).isSome := fun p member => by
    obtain ⟨others,before,_⟩ := assign_handles s.mem.windows job.h.cltNonce
    exact kept.owned.mem.mp (List.mem_append_left _ (before.mem_iff.mpr (List.mem_append_left _ member)))
  have positive : job.h.cltNonce > 0 := UInt32.pos_iff_ne_zero.mpr nonzero
  rw [ReplyWindow.addReply,shown,← addReply_view valid]
  simp only [add,positive,if_true,bytes,size]
  refine mirror_assign kept.mirror job.h.cltNonce _ (fun p _ before => ?_) _ rfl rfl
  exact addReply_read (owned_given kept.owned (window_owned_handle before))

end Mirror

section Run

theorem joint_owned (kept : Kept s) (joint : Joint cfg s label s') : s'.mem.heap.Owned (owned s'.mem) := by
  cases joint with
  | outside | passed => exact kept.owned
  | taken =>
    refine kept.owned.perm (List.Perm.of_eq ?_)
    simp [owned,owns]
  | opened held standing _ _ _ pc => exact construct_owned kept.owned standing (start_nothing (kept.stands _ _ _ held standing) pc) _ _
  | refused => exact (kept.owned.alloc _).free
  | created => exact window_owned kept.owned _
  | answered held standing _ _ pc => exact check_owned kept.owned standing (check_nothing (kept.stands _ _ _ held standing) pc).2 _
  | ran held standing _ _ _ pc => exact takeBuf_owned kept.owned standing (run_nothing (kept.stands _ _ _ held standing) pc).2 _
  | stored => exact add_owned kept.owned _ _
  | ended held standing => exact finish_owned kept.owned standing _

theorem joint_mirror (kept : Kept s) (joint : Joint cfg s label s') : Mirrors s'.server.windows s'.mem := by
  have live : ∀ p ∈ windowHandles s.mem.windows, (s.mem.heap.read p).isSome := fun p member =>
    kept.owned.mem.mp (window_owned_handle member)
  have apart : ∀ j loc, s.mem.locals[j]? = some loc → ∀ p ∈ windowHandles s.mem.windows, p ∉ owns loc :=
    fun j loc standing p member mine => window_apart kept.owned member (local_member standing mine)
  cases joint with
  | outside _ windows | taken _ windows | passed _ _ _ windows =>
    simp only [windows]
    exact mirror_same kept.mirror rfl fun _ _ => rfl
  | opened _ _ _ windows =>
    simp only [windows]
    exact mirror_same kept.mirror rfl fun p member => alloc_read kept.owned (window_owned_handle member) _
  | refused _ _ _ windows =>
    simp only [windows]
    refine mirror_same kept.mirror rfl fun p member => ?_
    have fresh : some s.mem.heap.next ≠ some p := fun same => by
      have bound := Heap.read_bound (live p member)
      rw [Option.some.inj same] at bound
      exact Nat.lt_irrefl _ bound
    exact (free_read fresh).trans (alloc_read kept.owned (window_owned_handle member) _)
  | created _ _ _ windows =>
    simp only [windows]
    exact window_mirror kept.mirror _
  | answered held standing _ answered => exact check_mirror kept standing answered
  | ran held standing _ windows =>
    simp only [windows]
    exact mirror_same kept.mirror rfl fun p member => write_read (fun here => apart _ _ standing p member (rep_owned here)) _
  | stored held standing _ windows pc nonzero =>
    simp only [windows]
    exact add_mirror kept held standing pc nonzero
  | ended held standing _ windows =>
    simp only [windows]
    exact mirror_same kept.mirror rfl fun p member => finish_read (apart _ _ standing p member) _ _ _

theorem joint_stands (kept : Kept s) (joint : Joint cfg s label s') (k : Nat) (other : Job C) (its : Local)
    (found : s'.server.jobs[k]? = some other) (stood : s'.mem.locals[k]? = some its) : Stands s'.mem.heap other its := by
  cases joint with
  | outside jobs => exact kept.stands k other its (jobs ▸ found) stood
  | taken jobs =>
    simp only [jobs] at found
    rcases Machine.pair_append kept.aligned found stood with ⟨before,its_before⟩ | ⟨rfl,rfl⟩
    · exact kept.stands k other its before its_before
    · exact ⟨rfl,rfl⟩
  | passed held standing jobs _ _ b1 passes =>
    simp only [jobs] at found
    rw [← same_locals standing] at stood
    exact each_stands kept held standing (fun _ _ _ => rfl) (passes_stands (kept.stands _ _ _ held standing) b1 passes)
      k other its found stood
  | opened held standing jobs _ _ pc opens =>
    simp only [jobs] at found
    have nothing := start_nothing (kept.stands _ _ _ held standing) pc
    exact each_stands kept held standing (fun p member _ => alloc_read kept.owned (local_owned member) _)
      (opened_stands nothing opens) k other its found stood
  | refused held standing jobs _ pc =>
    simp only [jobs] at found
    rw [← same_locals standing] at stood
    have nothing := start_nothing (kept.stands _ _ _ held standing) pc
    refine each_stands kept held standing (fun p member _ => ?_) ?_ k other its found stood
    · have bound := Heap.read_bound (kept.owned.mem.mp (local_owned member))
      have fresh : some s.mem.heap.next ≠ some p := fun same => Nat.ne_of_gt bound (Option.some.inj same)
      exact (free_read fresh).trans (alloc_read kept.owned (local_owned member) _)
    · exact nothing
  | created held standing jobs _ pc =>
    simp only [jobs] at found
    rw [window_locals,← same_locals standing] at stood
    have nothing := window_nothing (kept.stands _ _ _ held standing) pc
    refine each_stands kept held standing (fun p _ _ => congrArg (·.read p) (window_heap _ _)) ?_ k other its found stood
    exact nothing
  | answered held standing jobs answered pc =>
    simp only [jobs] at found
    exact check_stands kept held standing pc answered k other its found stood
  | ran held standing jobs _ _ pc added =>
    simp only [jobs] at found
    have nothing := run_nothing (kept.stands _ _ _ held standing) pc
    refine each_stands kept held standing (fun p _ other => write_read (fun here => other (rep_owned here)) _) ?_
      k other its found stood
    unfold Stands
    rw [added]
    refine ⟨nothing.2.2,?_⟩
    unfold Answers
    rw [nothing.2.2]
    refine ⟨rfl,written_holds kept.owned (fun p here => ?_) nothing.1 _,rfl⟩
    exact local_owned (local_member standing (rep_owned here))
  | stored held standing jobs _ pc nonzero =>
    simp only [jobs] at found
    rw [add_locals,← same_locals standing] at stood
    have answers := add_answers (kept.stands _ _ _ held standing) pc
    refine each_stands kept held standing (fun p member _ => add_read (owned_given kept.owned (local_owned member)) _ _) ?_
      k other its found stood
    refine ⟨answers.1,Answers.kept (fun p mine => ?_) (answers.2.moves rfl fun wrong => by rw [pc] at wrong; cases wrong)⟩
    exact add_read (owned_given kept.owned (local_owned (local_member standing mine))) _ _
  | ended held standing jobs _ _ =>
    simp only [jobs] at found
    refine each_stands kept held standing (fun p _ other => finish_read other _ _ _) ?_ k other its found stood
    exact ⟨rfl,rfl⟩

theorem joint_kept (kept : Kept s) (joint : Joint cfg s label s') : Kept s' :=
  ⟨joint_aligned kept.aligned joint,joint_owned kept joint,joint_stands kept joint,joint_mirror kept joint⟩

theorem initial_kept : Kept (initial : State C) := by
  refine ⟨rfl,Heap.owned_empty,by simp [initial,Rpcs.initial],fun clt => ?_⟩
  simp [initial,Rpcs.initial,ReplyWindow.initial,OrderedMap.find,OrderedMap.empty]

theorem runs_kept [DecidableEq C] {ok : State C → Rpcs.Label C → Prop} (path : Machine.Runs (step cfg) ok initial labels s) : Kept s :=
  path.invariant initial_kept fun _ _ _ kept _ taken => joint_kept kept (step_joint kept.aligned taken)

end Run
end YfsLab.BufferOwners
