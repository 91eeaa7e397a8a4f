import YfsLab.BufferOwners

namespace YfsLab.ResentReplies
open Machine
open ReplyWindow (RpcstateT)
open Rpcs (Job Pc Config)
open ReplyBuffers BufferOwners

variable {C : Type} {cfg : Config} {s s' : State C} {label : Rpcs.Label C} {m : Mem} {heap heap' : Memory}

-- The dispatch got DONE and c->send(b1, sz1) is what it does next.
def Resends (job : Job C) (loc : Local) : Prop := job.pc = .send ∧ loc.stat = some .DONE

instance (job : Job C) (loc : Local) : Decidable (Resends job loc) := inferInstanceAs (Decidable (_ ∧ _))

-- What is sent again is valid memory, is the reply that the window gave out,
-- and was stored for this client and xid.
def Resent (s : State C) : Prop := ∀ (k : Nat) job loc, s.server.jobs[k]? = some job → s.mem.locals[k]? = some loc →
  Resends job loc → sends s k = some job.b1 ∧ (job.h.cltNonce,job.h.xid,job.b1) ∈ s.mem.stored

def awaited (s : State C) : List (Option Nat) :=
  ((s.server.jobs.zip s.mem.locals).filter fun dispatch => Resends dispatch.1 dispatch.2).map fun dispatch => dispatch.2.b1

def released (s : State C) : Rpcs.Label C → List (Option Nat)
  | .check j =>
    match s.server.jobs[j]? with
    | some job => (pruned job.h.xid job.h.xidRep ((s.mem.windows.find job.h.cltNonce).getD [])).map Entry.buf
    | none => []
  | _ => []

-- A check releases no buffer that a dispatch is going to send again.
def Spares (s : State C) (label : Rpcs.Label C) : Prop := ∀ pointer ∈ awaited s, pointer ∉ released s label

instance (s : State C) (label : Rpcs.Label C) : Decidable (Spares s label) := inferInstanceAs (Decidable (∀ _ ∈ _, _))

theorem mem_awaited {k : Nat} {job : Job C} {loc : Local} (held : s.server.jobs[k]? = some job)
    (standing : s.mem.locals[k]? = some loc) (resends : Resends job loc) : loc.b1 ∈ awaited s := by
  refine List.mem_map.mpr ⟨(job,loc),List.mem_filter.mpr ⟨?_,by simpa using resends⟩,rfl⟩
  refine List.mem_of_getElem? (i := k) ?_
  rw [List.getElem?_zip_eq_some]
  exact ⟨held,standing⟩

theorem awaited_held (member : pointer ∈ awaited s) : ∃ (k : Nat) (job : Job C) (loc : Local),
    s.server.jobs[k]? = some job ∧ s.mem.locals[k]? = some loc ∧ Resends job loc ∧ pointer = loc.b1 := by
  obtain ⟨⟨job,loc⟩,inside,rfl⟩ := List.mem_map.mp member
  obtain ⟨inside,resends⟩ := List.mem_filter.mp inside
  obtain ⟨k,found⟩ := List.getElem?_of_mem inside
  rw [List.getElem?_zip_eq_some] at found
  exact ⟨k,job,loc,found.1,found.2,by simpa using resends,rfl⟩

-- What an entry says is present is there, and was stored for its xid.
def Filled (m : Mem) (clt : UInt32) (it : Entry) : Prop := it.cbPresent = true →
  ∃ p bytes, it.buf = some p ∧ m.heap.read p = some bytes ∧ it.sz = bytes.length ∧ (clt,it.xid,bytes) ∈ m.stored

def Shelved (m : Mem) : Prop := ∀ clt entries, m.windows.find clt = some entries → ∀ it ∈ entries, Filled m clt it

section Shelf
variable {m' : Mem} {j p : Nat} {job : Job C} {loc : Local} {clt xid xidRep : UInt32} {entries : List Entry} {it : Entry}

theorem Filled.kept (filled : Filled m clt it) (frame : ∀ p, it.buf = some p → m'.heap.read p = m.heap.read p)
    (history : ∀ reply ∈ m.stored, reply ∈ m'.stored) : Filled m' clt it := by
  intro present
  obtain ⟨p,bytes,buf,read,size,stored⟩ := filled present
  exact ⟨p,bytes,buf,(frame p buf).trans read,size,history _ stored⟩

theorem buf_handle (member : it ∈ entries) (buf : it.buf = some p) : p ∈ handles entries :=
  List.mem_filterMap.mpr ⟨it,member,buf⟩

theorem shelved_same (shelved : Shelved m) (same : m'.windows = m.windows)
    (frame : ∀ p ∈ windowHandles m.windows, m'.heap.read p = m.heap.read p)
    (history : ∀ reply ∈ m.stored, reply ∈ m'.stored) : Shelved m' := by
  intro clt entries found it member
  rw [same] at found
  exact (shelved clt entries found it member).kept
    (fun p buf => frame p (found_handles _ found (buf_handle member buf))) history

theorem shelved_assign (shelved : Shelved m) (assigned : m'.windows = m.windows.assign clt entries)
    (frame : ∀ p ∈ windowHandles m'.windows, p ∈ windowHandles m.windows → m'.heap.read p = m.heap.read p)
    (history : ∀ reply ∈ m.stored, reply ∈ m'.stored) (filled : ∀ it ∈ entries, Filled m' clt it) : Shelved m' := by
  intro other there found it member
  by_cases same : other = clt
  · rw [assigned,same,OrderedMap.find_assign_self] at found
    cases Option.some.inj found
    exact same ▸ filled it member
  · have before : m.windows.find other = some there := by
      rw [← found,assigned]
      exact (OrderedMap.find_assign_other _ same).symm
    refine (shelved other there before it member).kept (fun p buf => ?_) history
    exact frame p (found_handles _ found (buf_handle member buf)) (found_handles _ before (buf_handle member buf))

theorem window_shelved (shelved : Shelved m) (clt : UInt32) : Shelved (window m clt) := by
  unfold window
  split
  · exact shelved_assign shelved rfl (fun _ _ _ => rfl) (fun _ member => member) (by simp)
  · exact shelved

theorem check_member (member : it ∈ (checkduplicateAndUpdate xid xidRep heap entries).2.2) :
    it ∈ entries ∨ it.cbPresent = false := by
  have kept := scan_kept xid xidRep heap entries
  unfold checkduplicateAndUpdate at member
  split at member <;> rename_i result <;> rw [result] at kept
  · exact .inl (kept.mem_iff.mpr (List.mem_append_right _ member))
  · rcases List.mem_append.mp member with old | new
    · exact .inl (kept.mem_iff.mpr (List.mem_append_right _ old))
    · obtain rfl := List.mem_singleton.mp new
      exact .inr rfl

theorem check_shelved (shelved : Shelved m) (whole : m.heap.Owned (owned m)) (standing : m.locals[j]? = some loc) (job : Job C) :
    Shelved (check m j job loc) := by
  have frame := fun p => check_window_read (p:=p) whole standing job
  cases known : m.windows.find job.h.cltNonce with
  | none =>
    simp only [check,known]
    exact shelved
  | some entries =>
    obtain ⟨result,same,checked⟩ := check_known j loc known
    rw [checked] at frame ⊢
    have history : ∀ reply ∈ m.stored, reply ∈ m.stored := fun _ member => member
    refine shelved_assign shelved rfl (fun p member _ => frame p member) history fun it member present => ?_
    rcases check_member (same ▸ member) with old | blank
    · refine (shelved _ entries known it old).kept (fun p buf => frame p ?_) history present
      exact found_handles _ (OrderedMap.find_assign_self _ _ _) (buf_handle member buf)
    · rw [blank] at present
      cases present

theorem add_shelved (kept : Kept s) (shelved : Shelved s.mem) (held : s.server.jobs[j]? = some job)
    (standing : s.mem.locals[j]? = some loc) (pc : job.pc = .add) (nonzero : job.h.cltNonce ≠ 0) :
    Shelved (add s.mem job loc) := by
  obtain ⟨new,answers⟩ := add_answers (kept.stands j job loc held standing) pc
  obtain ⟨_,holds,size⟩ := answers_new answers new
  have bytes : content s.mem.heap loc.b1 = job.b1 := congrArg (·.getD []) holds
  have positive : job.h.cltNonce > 0 := UInt32.pos_iff_ne_zero.mpr nonzero
  have frame : ∀ p ∈ windowHandles s.mem.windows, (add s.mem job loc).heap.read p = s.mem.heap.read p :=
    fun p member => add_read (owned_given kept.owned (window_owned_handle member)) job loc
  have history : ∀ reply ∈ s.mem.stored, reply ∈ (add s.mem job loc).stored := fun reply member => by
    simp only [add,positive,if_true]
    exact List.mem_append_left _ member
  have before : ∀ it ∈ (s.mem.windows.find job.h.cltNonce).getD [], Filled s.mem job.h.cltNonce it ∧
      ∀ p, it.buf = some p → p ∈ windowHandles s.mem.windows := by
    cases known : s.mem.windows.find job.h.cltNonce with
    | none => simp
    | some entries =>
      exact fun it member => ⟨shelved _ entries known it member,
        fun p buf => found_handles _ known (buf_handle member buf)⟩
  have assigned : (add s.mem job loc).windows = s.mem.windows.assign job.h.cltNonce
      (addReply job.h.xid job.b1 loc.sz1 s.mem.heap ((s.mem.windows.find job.h.cltNonce).getD [])).2 := by
    simp only [add,positive,if_true,bytes]
  refine shelved_assign shelved assigned (fun p _ old => frame p old) history ?_
  have stays : ∀ it ∈ (s.mem.windows.find job.h.cltNonce).getD [], Filled (add s.mem job loc) job.h.cltNonce it :=
    fun it member => (before it member).1.kept (fun p buf => frame p ((before it member).2 p buf)) history
  cases found : ((s.mem.windows.find job.h.cltNonce).getD []).find? fun it => it.xid = job.h.xid with
  | none =>
    rw [addReply_missing job.b1 loc.sz1 found]
    exact stays
  | some old =>
    obtain ⟨front,rest,whole,xid,_,added⟩ := addReply_found job.b1 loc.sz1 found
    rw [whole] at stays
    rw [added]
    rw [size] at added
    have memory : (add s.mem job loc).heap = s.mem.heap.alloc job.b1 := by
      simp only [add,positive,if_true,bytes,size,added,List.take_length]
    intro it member
    rcases List.mem_append.mp member with ahead | behind
    · exact stays it (List.mem_append_left _ ahead)
    rcases List.mem_cons.mp behind with rfl | behind
    · intro _
      refine ⟨s.mem.heap.next,job.b1,rfl,?_,size,?_⟩
      · rw [memory,Heap.read_alloc,if_pos rfl]
      · simp only [add,positive,if_true,bytes,found,size,List.take_length,xid]
        exact List.mem_append_right _ (by simp)
    · exact stays it (List.mem_append_right _ (List.mem_cons_of_mem _ behind))

end Shelf

section Steps
variable {k j p : Nat} {job other : Job C} {loc its new : Local}

theorem joint_shelved (kept : Kept s) (shelved : Shelved s.mem) (joint : Joint cfg s label s') : Shelved s'.mem := by
  have apart : ∀ j loc, s.mem.locals[j]? = some loc → ∀ p ∈ windowHandles s.mem.windows, p ∉ owns loc :=
    fun j loc standing p member mine => window_apart kept.owned member (local_member standing mine)
  have given : ∀ p ∈ windowHandles s.mem.windows, p < s.mem.heap.next := fun p member =>
    owned_given kept.owned (window_owned_handle member)
  cases joint with
  | outside | passed => exact shelved
  | taken => exact shelved_same shelved rfl (fun _ _ => rfl) fun _ member => member
  | opened =>
    exact shelved_same shelved rfl (fun p member => alloc_read kept.owned (window_owned_handle member) _) fun _ member => member
  | refused =>
    refine shelved_same shelved rfl (fun p member => ?_) fun _ member => member
    have fresh : some s.mem.heap.next ≠ some p := fun same => Nat.ne_of_gt (given p member) (Option.some.inj same)
    exact (free_read fresh).trans (alloc_read kept.owned (window_owned_handle member) _)
  | created => exact window_shelved shelved _
  | answered _ standing => exact check_shelved shelved kept.owned standing _
  | ran _ standing =>
    exact shelved_same shelved rfl (fun p member => write_read (fun here => apart _ _ standing p member (rep_owned here)) _)
      fun _ member => member
  | stored held standing _ _ pc nonzero => exact add_shelved kept shelved held standing pc nonzero
  | ended _ standing =>
    exact shelved_same shelved rfl (fun p member => finish_read (apart _ _ standing p member) _ _ _) fun _ member => member

theorem write_next (pointer : Option Nat) (heap : Memory) (bytes : List UInt8) :
    (pointer.elim heap (heap.write · bytes)).next = heap.next := by
  cases pointer with
  | none => rfl
  | some p => exact Heap.next_write heap p bytes

theorem answered_next (heap : Memory) (job : Job C) (loc : Local) (answer : Answer) :
    (answered heap job loc answer).1.next = heap.next := by
  unfold answered
  split
  · rfl
  · exact write_next _ _ _
  · rfl

theorem check_next (m : Mem) (j : Nat) (job : Job C) (loc : Local) : (check m j job loc).heap.next = m.heap.next := by
  cases known : m.windows.find job.h.cltNonce with
  | none => simp only [check,known]
  | some entries =>
    obtain ⟨result,same,checked⟩ := check_known j loc known
    rw [checked]
    refine (answered_next _ job loc _).trans ?_
    rw [same,check_heap,Heap.next_freeAll]

theorem addReply_next (xid : UInt32) (b : List UInt8) (sz : Nat) (heap : Memory) (entries : List Entry) :
    heap.next ≤ (addReply xid b sz heap entries).1.next := by
  cases found : entries.find? fun it => it.xid = xid with
  | none => rw [addReply_missing b sz found]
  | some old =>
    obtain ⟨front,rest,_,_,_,added⟩ := addReply_found b sz found
    rw [added,Heap.next_alloc]
    exact Nat.le_succ _

theorem finish_next (m : Mem) (j : Nat) (job : Job C) (loc : Local) : (finish m j job loc).heap.next = m.heap.next := by
  simp only [finish,setLocal,Heap.next_free]
  split
  · exact Heap.next_free _ _
  · rfl

theorem joint_next (joint : Joint cfg s label s') : s.mem.heap.next ≤ s'.mem.heap.next := by
  cases joint with
  | outside | taken | passed => exact Nat.le_refl _
  | opened => exact Nat.le_of_lt (by simp [construct,setLocal])
  | refused => exact Nat.le_of_lt (by simp)
  | created => rw [window_heap]
  | answered => rw [check_next]
  | ran => exact Nat.le_of_eq (write_next _ _ _).symm
  | stored =>
    unfold add
    split
    · exact addReply_next _ _ _ _ _
    · exact Nat.le_refl _
  | ended => rw [finish_next]

theorem joint_history (joint : Joint cfg s label s') : ∀ reply ∈ s.mem.stored, reply ∈ s'.mem.stored := by
  intro reply member
  cases joint with
  | outside | taken | passed | opened | refused | ran | ended => exact member
  | created =>
    unfold window
    split <;> exact member
  | answered =>
    unfold check
    split <;> exact member
  | stored =>
    unfold add
    split
    · exact List.mem_append_left _ member
    · exact member

theorem set_owns (mine : p ∈ (m.locals.set j new).flatMap owns) : p ∈ owns new ∨ p ∈ m.locals.flatMap owns := by
  obtain ⟨its,member,mine⟩ := List.mem_flatMap.mp mine
  rcases List.mem_or_eq_of_mem_set member with old | same
  · exact .inr (List.mem_flatMap.mpr ⟨its,old,mine⟩)
  · exact .inl (same ▸ mine)

theorem joint_owns (kept : Kept s) (joint : Joint cfg s label s') (mine : p ∈ s'.mem.locals.flatMap owns) :
    p ∈ s.mem.locals.flatMap owns ∨ p = s.mem.heap.next := by
  cases joint with
  | outside | passed | refused => exact .inl mine
  | taken =>
    refine .inl ?_
    simpa [owns] using mine
  | opened held standing _ _ _ pc =>
    obtain ⟨rep,b1⟩ := start_nothing (kept.stands _ _ _ held standing) pc
    rcases set_owns mine with new | old
    · simp only [owns,b1] at new
      simp at new
      exact .inr new
    · exact .inl old
  | created =>
    rw [window_locals] at mine
    exact .inl mine
  | answered held standing _ answered pc =>
    have nothing := check_nothing (kept.stands _ _ _ held standing) pc
    obtain ⟨entries,known,_⟩ := check_agrees kept answered
    obtain ⟨result,_,checked⟩ := check_known _ _ known
    rw [checked] at mine
    rcases set_owns mine with new | old
    · rw [answered_owns nothing.2] at new
      exact .inl (local_member standing (List.mem_append_left _ new))
    · exact .inl old
  | ran held standing _ _ _ pc =>
    have running := run_nothing (kept.stands _ _ _ held standing) pc
    rcases set_owns mine with new | old
    · refine .inl (local_member standing ?_)
      simpa [owns,running] using new
    · exact .inl old
  | stored =>
    rw [add_locals] at mine
    exact .inl mine
  | ended =>
    rcases set_owns mine with new | old
    · simp [owns] at new
    · exact .inl old

theorem check_released (held : s.server.jobs[j]? = some job) (apart : p ∉ owns loc) :
    (check s.mem j job loc).heap.read p = if some p ∈ released s (.check j) then none else s.mem.heap.read p := by
  simp only [released,held]
  cases known : s.mem.windows.find job.h.cltNonce with
  | none => simp [check,known,pruned,reached]
  | some entries =>
    obtain ⟨result,same,checked⟩ := check_known j loc known
    have memory := check_heap job.h.xid job.h.xidRep s.mem.heap entries
    rw [← same] at memory
    rw [checked]
    refine (answered_read (fun here => apart (rep_owned here)) job result.1).trans ?_
    rw [memory,Option.getD_some]
    split
    · rename_i gone
      exact Heap.read_freeAll_gone gone
    · rename_i stays
      exact Heap.read_freeAll stays

theorem joint_read (joint : Joint cfg s label s') (given : p < s.mem.heap.next)
    (apart : p ∉ s.mem.locals.flatMap owns) :
    s'.mem.heap.read p = s.mem.heap.read p ∨ (some p ∈ released s label ∧ s'.mem.heap.read p = none) := by
  have other : ∀ j loc, s.mem.locals[j]? = some loc → p ∉ owns loc := fun j loc standing mine =>
    apart (local_member standing mine)
  have old : p ≠ s.mem.heap.next := Nat.ne_of_lt given
  cases joint with
  | outside | taken | passed => exact .inl rfl
  | opened => exact .inl ((Heap.read_alloc _ _ _).trans (if_neg old))
  | refused =>
    refine .inl ((free_read ?_).trans ((Heap.read_alloc _ _ _).trans (if_neg old)))
    exact fun same => old (Option.some.inj same).symm
  | created => exact .inl (congrArg (·.read p) (window_heap _ _))
  | answered held standing =>
    have read := check_released held (other _ _ standing)
    split at read
    · rename_i gone
      exact .inr ⟨gone,read⟩
    · exact .inl read
  | ran _ standing => exact .inl (write_read (fun here => other _ _ standing (rep_owned here)) _)
  | stored => exact .inl (add_read given _ _)
  | ended _ standing => exact .inl (finish_read (other _ _ standing) _ _ _)

theorem passes_quiet (stands : Stands heap job loc) (passes : Passes cfg job other.pc) : ¬ Resends other loc := by
  rintro ⟨pc,done⟩
  rw [pc] at passes
  cases passes with
  | chose pc =>
    unfold Stands at stands
    rw [pc] at stands
    cases done.symm.trans stands.1

theorem replaced_resends {jobs : List (Job C)} {locals : List Local} {job' : Job C} (quiet : ¬ Resends job' new)
    (found : (jobs.set j job')[k]? = some other) (stood : (locals.set j new)[k]? = some its) (resends : Resends other its) :
    jobs[k]? = some other ∧ locals[k]? = some its := by
  rcases pair_cases found stood with ⟨_,rfl,rfl⟩ | ⟨_,before⟩
  · exact absurd resends quiet
  · exact before

theorem resends_cases (kept : Kept s) (joint : Joint cfg s label s') (found : s'.server.jobs[k]? = some other)
    (stood : s'.mem.locals[k]? = some its) (resends : Resends other its) :
    (s.server.jobs[k]? = some other ∧ s.mem.locals[k]? = some its) ∨
    ∃ job loc entries, s.mem.locals[k]? = some loc ∧ s.mem.windows.find job.h.cltNonce = some entries ∧
      other = Rpcs.afterCheck job ((checkduplicateAndUpdate job.h.xid job.h.xidRep s.mem.heap entries).1.view s.mem.heap) ∧
      s'.mem = check s.mem k job loc := by
  cases joint with
  | outside jobs => exact .inl ⟨jobs ▸ found,stood⟩
  | taken jobs =>
    simp only [jobs] at found
    rcases pair_append kept.aligned found stood with before | ⟨rfl,rfl⟩
    · exact .inl before
    · cases resends.1
  | passed held standing jobs _ _ _ passes =>
    simp only [jobs] at found
    rw [← same_locals standing] at stood
    exact .inl (replaced_resends (passes_quiet (kept.stands _ _ _ held standing) passes) found stood resends)
  | opened _ _ jobs _ _ _ opens =>
    simp only [jobs] at found
    refine .inl (replaced_resends (fun wrong => ?_) found stood resends)
    have pc := wrong.1
    rcases opens with ⟨to_,_⟩ | ⟨to_,_⟩ | ⟨to_,_⟩ <;> rw [to_] at pc <;> cases pc
  | refused _ standing jobs =>
    simp only [jobs] at found
    rw [← same_locals standing] at stood
    exact .inl (replaced_resends (fun wrong => by cases wrong.1) found stood resends)
  | created _ standing jobs =>
    simp only [jobs] at found
    rw [window_locals,← same_locals standing] at stood
    exact .inl (replaced_resends (fun wrong => by cases wrong.1) found stood resends)
  | answered _ standing jobs answered =>
    obtain ⟨entries,known,rfl,_⟩ := check_agrees kept answered
    obtain ⟨result,_,checked⟩ := check_known _ _ known
    simp only [jobs] at found
    have locals := stood
    rw [checked] at locals
    rcases pair_cases found locals with ⟨rfl,rfl,_⟩ | ⟨_,before⟩
    · exact .inr ⟨_,_,entries,standing,known,rfl,rfl⟩
    · exact .inl before
  | ran _ _ jobs _ _ _ added =>
    simp only [jobs] at found
    refine .inl (replaced_resends (fun wrong => ?_) found stood resends)
    have pc := wrong.1
    rw [added] at pc
    cases pc
  | stored _ standing jobs =>
    simp only [jobs] at found
    rw [add_locals,← same_locals standing] at stood
    exact .inl (replaced_resends (fun wrong => by cases wrong.1) found stood resends)
  | ended _ _ jobs =>
    simp only [jobs] at found
    exact .inl (replaced_resends (fun wrong => by cases wrong.1) found stood resends)

-- What holds of the reply that a dispatch is to send again, come what may: it
-- is the window's, and no other bytes can take its place.
structure Away (m : Mem) (job : Job C) (loc : Local) (p : Nat) : Prop where
  pointer : loc.b1 = some p
  given : p < m.heap.next
  apart : p ∉ m.locals.flatMap owns
  size : loc.sz1 = job.b1.length
  stored : (job.h.cltNonce,job.h.xid,job.b1) ∈ m.stored
  intact : m.heap.read p = some job.b1 ∨ m.heap.read p = none

def Shared (s : State C) : Prop := ∀ (k : Nat) job loc, s.server.jobs[k]? = some job → s.mem.locals[k]? = some loc →
  Resends job loc → ∃ p, Away s.mem job loc p

theorem answered_stat (heap : Memory) (job : Job C) (loc : Local) (answer : Answer) :
    (answered heap job loc answer).2.stat = some answer.stat := by
  unfold answered
  split
  · rename_i done
    rw [done]
  · rename_i forgotten
    rw [forgotten]
  · rfl

theorem answered_done (heap before : Memory) (job : Job C) (loc : Local) {answer : Answer} (done : answer.stat = .DONE)
    (out : answer.out = some (pointer,sz)) :
    (answered heap job loc answer).2 = {loc with b1:=pointer,sz1:=sz,stat:=some .DONE} ∧
      Rpcs.afterCheck job (answer.view before) = {job with b1:=content before pointer,pc:=.send} := by
  obtain ⟨stat,found⟩ := answer
  cases done
  cases out
  exact ⟨rfl,rfl⟩

theorem check_away (kept : Kept s') (shelved : Shelved s'.mem) (standing : s.mem.locals[k]? = some loc)
    (whole : s.mem.heap.Owned (owned s.mem)) (known : s.mem.windows.find job.h.cltNonce = some entries)
    (checked : s'.mem = check s.mem k job loc) (stood : s'.mem.locals[k]? = some its) (done : its.stat = some .DONE)
    (answered : other = Rpcs.afterCheck job
      ((checkduplicateAndUpdate job.h.xid job.h.xidRep s.mem.heap entries).1.view s.mem.heap)) :
    ∃ p, Away s'.mem other its p ∧ s'.mem.heap.read p = some other.b1 := by
  obtain ⟨result,same,memory⟩ := check_known k loc known
  have frame := fun p => check_window_read (p:=p) whole standing job
  rw [← checked] at memory frame
  rw [← same] at answered
  have here : its = (ReplyBuffers.answered result.2.1 job loc result.1).2 := by
    rw [memory] at stood
    exact Option.some.inj (stood.symm.trans (entry_self standing))
  rw [here,answered_stat] at done
  have got : result.1.stat = .DONE := Option.some.inj done
  rw [same] at got
  obtain ⟨it,member,xid,present,out⟩ := check_done got
  rw [← same] at got member out
  have window : s'.mem.windows.find job.h.cltNonce = some result.2.2 := by
    rw [memory]
    exact OrderedMap.find_assign_self _ _ _
  obtain ⟨p,bytes,buf,read,size,stored⟩ := shelved _ _ window it member present
  have inside : p ∈ windowHandles s'.mem.windows := found_handles _ window (buf_handle member buf)
  obtain ⟨gives,sends⟩ := answered_done result.2.1 s.mem.heap job loc got out
  have shown : content s.mem.heap it.buf = bytes := by
    rw [buf]
    exact congrArg (·.getD []) ((frame p inside).symm.trans read)
  rw [sends,shown] at answered
  rw [gives] at here
  subst answered here
  refine ⟨p,⟨buf,Heap.read_bound ?_,window_apart kept.owned inside,size,xid ▸ stored,.inl read⟩,read⟩
  rw [read]
  rfl

theorem joint_shared (kept : Kept s) (shared : Shared s) (shelved : Shelved s.mem) (joint : Joint cfg s label s') : Shared s' := by
  intro k other its found stood resends
  rcases resends_cases kept joint found stood resends with ⟨before,its_before⟩ | ⟨job,loc,entries,standing,known,answered,checked⟩
  · obtain ⟨p,away⟩ := shared k other its before its_before resends
    refine ⟨p,away.pointer,Nat.lt_of_lt_of_le away.given (joint_next joint),fun mine => ?_,away.size,
      joint_history joint _ away.stored,?_⟩
    · rcases joint_owns kept joint mine with old | new
      · exact away.apart old
      · exact Nat.ne_of_lt away.given new
    · rcases joint_read joint away.given away.apart with same | ⟨_,gone⟩
      · exact same ▸ away.intact
      · exact .inr gone
  · obtain ⟨p,away,_⟩ := check_away (joint_kept kept joint) (joint_shelved kept shelved joint) standing kept.owned known checked
      stood resends.2 answered
    exact ⟨p,away⟩

end Steps

section Run
variable {k j p : Nat} {job : Job C} {loc : Local}

structure Tracked (s : State C) : Prop where
  kept : Kept s
  shelved : Shelved s.mem
  shared : Shared s

theorem runs_tracked [DecidableEq C] {ok : State C → Rpcs.Label C → Prop} (path : Runs (step cfg) ok initial labels s) : Tracked s := by
  refine path.invariant_reached ?_ fun _ _ _ _ prior tracked _ taken => ?_
  · refine ⟨initial_kept,fun clt entries found => ?_,by simp [Shared,initial,Rpcs.initial]⟩
    cases found
  · have joint := step_joint tracked.kept.aligned taken
    exact ⟨joint_kept tracked.kept joint,joint_shelved tracked.kept tracked.shelved joint,
      joint_shared tracked.kept tracked.shared tracked.shelved joint⟩

theorem sends_away (held : s.server.jobs[k]? = some job) (standing : s.mem.locals[k]? = some loc) (resends : Resends job loc)
    (away : Away s.mem job loc p) : sends s k = some job.b1 ↔ s.mem.heap.read p = some job.b1 := by
  have case : job.pc = .send ∧ (loc.stat = some .NEW ∨ loc.stat = some .DONE) := ⟨resends.1,.inr resends.2⟩
  simp only [sends,held,standing,if_pos case,away.pointer,Option.bind_some,away.size]
  rcases away.intact with valid | gone
  · simp [valid]
  · simp [gone]

theorem check_step [DecidableEq C] (kept : Kept s) (taken : step cfg s (.check j) = some s') : ∃ job loc,
    s.server.jobs[j]? = some job ∧ s.mem.locals[j]? = some loc ∧ job.pc = .check ∧ s'.mem = check s.mem j job loc ∧
      (∃ job', s'.server.jobs = s.server.jobs.set j job') ∧ ∃ new, s'.mem.locals = s.mem.locals.set j new := by
  obtain ⟨after,ran,rfl⟩ := Option.map_eq_some_iff.mp taken
  cases Rpcs.step_sound ran with
  | @check j job answer windows held pc answered =>
    obtain ⟨loc,stands⟩ := kept.aligned.stands held
    obtain ⟨entries,known,_⟩ := check_agrees kept answered
    obtain ⟨result,_,checked⟩ := check_known j loc known
    have memory := fun after => (jobEffect_eq held stands rfl after : effect cfg s after (.check j) = check s.mem j job loc)
    refine ⟨job,loc,held,stands,pc,memory _,⟨_,rfl⟩,(ReplyBuffers.answered result.2.1 job loc result.1).2,?_⟩
    exact (congrArg Mem.locals (memory _)).trans (congrArg Mem.locals checked)

theorem step_resent_iff [DecidableEq C] (tracked : Tracked s) (resent : Resent s) (taken : step cfg s label = some s') :
    Resent s' ↔ Spares s label := by
  have joint := step_joint tracked.kept.aligned taken
  constructor
  · intro after pointer awaits gone
    obtain ⟨k,job,loc,held,standing,resends,rfl⟩ := awaited_held awaits
    obtain ⟨p,away⟩ := tracked.shared k job loc held standing resends
    cases label with
    | check j =>
      obtain ⟨checking,its,found,stood,pc,checked,⟨job',jobs⟩,new,locals⟩ := check_step tracked.kept taken
      have different : k ≠ j := fun same => by
        subst same
        cases Option.some.inj (held.symm.trans found)
        cases pc.symm.trans resends.1
      have still : s'.server.jobs[k]? = some job := by rw [jobs,entry_other different]; exact held
      have stays : s'.mem.locals[k]? = some loc := by rw [locals,entry_other different]; exact standing
      obtain ⟨q,later⟩ := joint_shared tracked.kept tracked.shared tracked.shelved joint k job loc still stays resends
      cases Option.some.inj (away.pointer.symm.trans later.pointer)
      have valid := (sends_away still stays resends later).mp (after k job loc still stays resends).1
      have freed := check_released found fun mine => away.apart (local_member stood mine)
      rw [away.pointer] at gone
      rw [checked,freed,if_pos gone] at valid
      cases valid
    | _ => cases gone
  · intro spares k job loc found stood resends
    rcases resends_cases tracked.kept joint found stood resends with ⟨before,its_before⟩ | ⟨job',loc',entries,standing,known,answered,checked⟩
    · obtain ⟨p,away⟩ := tracked.shared k job loc before its_before resends
      obtain ⟨sent,stored⟩ := resent k job loc before its_before resends
      have valid := (sends_away before its_before resends away).mp sent
      obtain ⟨q,still⟩ := joint_shared tracked.kept tracked.shared tracked.shelved joint k job loc found stood resends
      cases Option.some.inj (away.pointer.symm.trans still.pointer)
      refine ⟨(sends_away found stood resends still).mpr ?_,still.stored⟩
      rcases joint_read joint away.given away.apart with same | ⟨gone,_⟩
      · exact same.trans valid
      · exact absurd gone (spares _ (away.pointer ▸ mem_awaited before its_before resends))
    · obtain ⟨p,away,read⟩ := check_away (joint_kept tracked.kept joint) (joint_shelved tracked.kept tracked.shelved joint) standing
        tracked.kept.owned known checked stood resends.2 answered
      exact ⟨(sends_away found stood resends away).mpr read,away.stored⟩

theorem resent_iff [DecidableEq C] (path : Runs (step cfg) free (initial : State C) labels s) :
    (∀ earlier later mid, labels = earlier ++ later → Runs (step cfg) free initial earlier mid → Resent mid) ↔
      Runs (step cfg) Spares initial labels s := by
  apply path.throughout_iff Resent (by simp [Resent,initial,Rpcs.initial])
  intro earlier before label after prior _ _ taken resent
  exact step_resent_iff (runs_tracked prior) resent taken

end Run

def server : Config := ⟨9,fun _ => none⟩

-- Bind requests of client 7 with this xid and acknowledgement, from their
-- arrival up to the check of dispatch j.
def arrival (j : Nat) (xid xidRep : UInt8) : List (Rpcs.Label Nat) :=
  [.gotPdu 1 [0,0,0,28,0,0,0,xid,0,0,0,1,0,0,0,7,0,0,0,0,0,0,0,xidRep,0,0,0,0],.take (fun _ => 0),.start j,.window j,.record j,.check j]

def execution (j : Nat) : List (Rpcs.Label Nat) := [.run j 0 (.int 9),.add j,.choose j,.send j,.decref j]

-- Requests 1 and 2, a duplicate of 2, and request 3 with what it acknowledges
-- between the check and the send of the duplicate.
def duplicated (acknowledged : UInt8) : List (Rpcs.Label Nat) :=
  [.accept 1] ++ arrival 0 1 0 ++ execution 0 ++ arrival 1 2 0 ++ execution 1 ++ arrival 2 2 0 ++ arrival 3 3 acknowledged

-- Request 3 acknowledges 1 only, and the reply to 2 is sent again.
theorem duplicate_answered : ∃ (s : State Nat) (job : Job Nat), Runs (step server) free initial (duplicated 1) s ∧
    s.server.jobs[2]? = some job ∧ sends s 2 = some job.b1 ∧ (7,2,job.b1) ∈ s.mem.stored := by
  have ran : (exec (guarded (step server) Spares) (initial : State Nat) (duplicated 1)).map
      (fun s => (s.server.jobs[2]?.map fun job => (job.pc,job.h.cltNonce,job.h.xid),s.mem.locals[2]?.map Local.stat)) =
      some (some (.send,7,2),some (some .DONE)) := by decide +kernel
  obtain ⟨s,path,seen⟩ := guarded_observed ran
  obtain ⟨there,here⟩ := Prod.mk.inj seen
  obtain ⟨job,held,shown⟩ := Option.map_eq_some_iff.mp there
  obtain ⟨loc,standing,stat⟩ := Option.map_eq_some_iff.mp here
  obtain ⟨pc,rest⟩ := Prod.mk.inj shown
  obtain ⟨clt,xid⟩ := Prod.mk.inj rest
  have resent := (resent_iff path.unrestricted).mpr path _ [] s (List.append_nil _).symm path.unrestricted
  obtain ⟨sent,stored⟩ := resent 2 job loc held standing ⟨pc,stat⟩
  rw [clt,xid] at stored
  exact ⟨s,job,path.unrestricted,held,sent,stored⟩

-- Request 3 acknowledges 2 as well: what the duplicate sends has been freed.
theorem acknowledged_reply_freed : ¬ ∀ labels (s : State Nat), Runs (step server) free initial labels s → Resent s := by
  intro always
  have ran : (exec (step server) (initial : State Nat) (duplicated 2)).map
      (fun s => (s.server.jobs[2]?.map Job.pc,s.mem.locals[2]?.map Local.stat,sends s 2)) =
      some (some .send,some (some .DONE),none) := by decide +kernel
  obtain ⟨s,path,seen⟩ := exec_free_observed ran
  obtain ⟨there,rest⟩ := Prod.mk.inj seen
  obtain ⟨here,nothing⟩ := Prod.mk.inj rest
  obtain ⟨job,held,pc⟩ := Option.map_eq_some_iff.mp there
  obtain ⟨loc,standing,stat⟩ := Option.map_eq_some_iff.mp here
  have sent := (always _ s path 2 job loc held standing ⟨pc,stat⟩).1
  rw [nothing] at sent
  cases sent

end YfsLab.ResentReplies
