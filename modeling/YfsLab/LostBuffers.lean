import YfsLab.BufferOwners

namespace YfsLab.LostBuffers
open Machine
open ReplyWindow (RpcstateT)
open Rpcs (Job Pc Config)
open ReplyBuffers BufferOwners

variable {C : Type} {cfg : Config} {s s' : State C} {label : Rpcs.Label C}

-- The buffers in use are those of the entries, each of one entry, and freeing
-- the window frees them all.
structure Accounted (m : Mem) : Prop where
  once : (windowHandles m.windows).Nodup
  exact : ∀ p, (m.heap.read p).isSome ↔ p ∈ windowHandles m.windows
  swept : ∀ p, (freeReplyWindow m).heap.read p = none

def Quiescent (s : State C) : Prop := ∀ job ∈ s.server.jobs, job.pc = .finished

def Busy (s : State C) (clt : UInt32) : Prop := ∃ entries, s.mem.windows.find clt = some entries ∧ entries ≠ []

-- Where a dispatch goes and what becomes of its stat; `busy` is for its client,
-- and `leaks` that something is lost afterwards.
inductive Turn (cfg : Config) (busy leaks : Prop) (job : Job C) (stat : Option RpcstateT) : Pc → Option RpcstateT → Prop where
  | passes : Passes cfg job pc → Turn cfg busy leaks job stat pc stat
  | stale : job.pc = .start → ¬ Guarded cfg job → Turn cfg busy leaks job stat .sendOld none
  | anonymous : job.pc = .start → job.h.cltNonce = 0 → Turn cfg busy leaks job stat .run (some .NEW)
  | guarded : job.pc = .start → Guarded cfg job → Turn cfg busy leaks job stat .window none
  | created : job.pc = .window → Turn cfg busy leaks job stat .record stat
  | fresh : job.pc = .check → Turn cfg busy leaks job stat .run (some .NEW)
  | dropped : job.pc = .check → busy → Turn cfg busy leaks job stat .decref (some .INPROGRESS)
  | again : job.pc = .check → busy → Turn cfg busy leaks job stat .send (some .DONE)
  | forgotten : job.pc = .check → busy → Turn cfg busy leaks job stat .send (some .FORGOTTEN)
  | ran : job.pc = .run → Turn cfg busy leaks job stat .add stat
  | stored : job.pc = .add → Turn cfg busy leaks job stat .choose stat
  | ended : job.pc = .sendOld ∨ (job.pc = .decref ∧ (stat = some .NEW → job.h.cltNonce ≠ 0 → leaks)) → Turn cfg busy leaks job stat .finished stat

theorem answered_turn {job : Job C} {busy leaks : Prop} (pc : job.pc = .check) (heap before : Memory) (loc : Local) (answer : Answer)
    (known : answer.stat ≠ .NEW → busy) :
    Turn cfg busy leaks job loc.stat (Rpcs.afterCheck job (answer.view before)).pc (answered heap job loc answer).2.stat := by
  obtain ⟨stat,out⟩ := answer
  cases stat with
  | NEW => exact .fresh pc
  | INPROGRESS => exact .dropped pc (known (by simp))
  | DONE => exact .again pc (known (by simp))
  | FORGOTTEN => exact .forgotten pc (known (by simp))

theorem afterCheck_pdu (job : Job C) (answer : ReplyWindow.Answer) : (Rpcs.afterCheck job answer).pdu = job.pdu := by
  unfold Rpcs.afterCheck
  split <;> rfl

theorem finish_leaks {m : Mem} {job : Job C} (stands : Stands heap job loc) (pc : job.pc = .decref)
    (new : loc.stat = some .NEW) (nonzero : job.h.cltNonce ≠ 0) : (finish m j job loc).lost ≠ [] := by
  unfold Stands at stands
  rw [pc] at stands
  obtain ⟨_,holds,_⟩ := answers_new stands new
  cases here : loc.b1 with
  | none =>
    rw [here] at holds
    cases holds
  | some p => simp [finish,setLocal,new,nonzero,here]

theorem joint_turn (kept : Kept s) (joint : Joint cfg s label s') :
    (s'.server.jobs = s.server.jobs ∧ s'.mem.locals = s.mem.locals) ∨
    (∃ c pdu junk, s'.server.jobs = s.server.jobs ++ [⟨c,c,pdu,junk,[],.start⟩] ∧
      s'.mem.locals = s.mem.locals ++ [⟨none,none,0,none⟩]) ∨
    ∃ (j : Nat) (job job' : Job C) (loc new : Local), s.server.jobs[j]? = some job ∧ s.mem.locals[j]? = some loc ∧
      s'.server.jobs = s.server.jobs.set j job' ∧ s'.mem.locals = s.mem.locals.set j new ∧ job'.pdu = job.pdu ∧
      Turn cfg (Busy s job.h.cltNonce) (s'.mem.lost ≠ []) job loc.stat job'.pc new.stat := by
  cases joint with
  | outside jobs => exact .inl ⟨jobs,rfl⟩
  | taken jobs => exact .inr (.inl ⟨_,_,_,jobs,rfl⟩)
  | passed held standing jobs _ pdu _ passes =>
    exact .inr (.inr ⟨_,_,_,_,_,held,standing,jobs,(same_locals standing).symm,pdu,.passes passes⟩)
  | opened held standing jobs _ pdu pc opens =>
    refine .inr (.inr ⟨_,_,_,_,_,held,standing,jobs,rfl,pdu,?_⟩)
    rcases opens with ⟨to_,_,stat,unguarded⟩ | ⟨to_,zero,stat⟩ | ⟨to_,guarded,stat⟩
    · rw [to_,stat]; exact .stale pc unguarded
    · rw [to_,stat]; exact .anonymous pc zero
    · rw [to_,stat]; exact .guarded pc guarded
  | refused held standing jobs _ pc unguarded =>
    exact .inr (.inr ⟨_,_,_,_,_,held,standing,jobs,(same_locals standing).symm,rfl,.passes (.leave pc unguarded)⟩)
  | created held standing jobs _ pc =>
    refine .inr (.inr ⟨_,_,_,_,_,held,standing,jobs,?_,rfl,.created pc⟩)
    rw [window_locals]
    exact (same_locals standing).symm
  | answered held standing jobs answered pc =>
    obtain ⟨entries,known,rfl,shown⟩ := check_agrees kept answered
    obtain ⟨result,same,checked⟩ := check_known _ _ known
    have locals := congrArg Mem.locals checked
    rw [same] at locals
    refine .inr (.inr ⟨_,_,_,_,_,held,standing,jobs,locals,afterCheck_pdu _ _,answered_turn pc _ _ _ _ fun other => ?_⟩)
    refine ⟨entries,known,fun empty => other ?_⟩
    rw [empty]
    rfl
  | ran held standing jobs _ pdu pc added =>
    refine .inr (.inr ⟨_,_,_,_,_,held,standing,jobs,rfl,pdu,?_⟩)
    rw [added]
    exact .ran pc
  | stored held standing jobs _ pc =>
    refine .inr (.inr ⟨_,_,_,_,_,held,standing,jobs,?_,rfl,.stored pc⟩)
    rw [add_locals]
    exact (same_locals standing).symm
  | ended held standing jobs _ pc =>
    refine .inr (.inr ⟨_,_,_,_,_,held,standing,jobs,rfl,rfl,.ended (pc.imp_right fun pc => ⟨pc,fun new nonzero => ?_⟩)⟩)
    exact finish_leaks (kept.stands _ _ _ held standing) pc new nonzero

theorem guarded_pdu {job job' : Job C} (same : job'.pdu = job.pdu) : Guarded cfg job' ↔ Guarded cfg job := by
  unfold Guarded Job.req Job.h
  rw [same]

-- What is known of a dispatch: stat is not set before the check, and past the
-- start only guarded requests have a nonce.
def Admitted (cfg : Config) (job : Job C) (stat : Option RpcstateT) : Prop :=
  match job.pc with
  | .start => stat = none
  | .sendOld => stat = none ∧ ¬ Guarded cfg job
  | .window | .record | .check => stat = none ∧ Guarded cfg job
  | .run | .add | .choose | .send | .decref => job.h.cltNonce ≠ 0 → Guarded cfg job
  | .finished => True

def past (pc : Pc) : Prop := pc ≠ .start ∧ pc ≠ .window ∧ pc ≠ .record ∧ pc ≠ .check

def New (s : State C) (clt : UInt32) : Prop := ∃ (k : Nat) (job : Job C) (loc : Local),
  s.server.jobs[k]? = some job ∧ s.mem.locals[k]? = some loc ∧ job.h.cltNonce = clt ∧ loc.stat = some .NEW

structure Tally (cfg : Config) (s : State C) : Prop where
  admitted : ∀ (j : Nat) job loc, s.server.jobs[j]? = some job → s.mem.locals[j]? = some loc → Admitted cfg job loc.stat
  entries : ∀ clt entries, s.mem.windows.find clt = some entries → entries ≠ [] → New s clt
  passed : ∀ (j : Nat) job, s.server.jobs[j]? = some job → Guarded cfg job → past job.pc → New s job.h.cltNonce
  leaked : ∀ (j : Nat) job loc, s.server.jobs[j]? = some job → s.mem.locals[j]? = some loc → loc.stat = some .NEW →
    job.h.cltNonce ≠ 0 → job.pc = .finished → s.mem.lost ≠ []
  guilty : s.mem.lost ≠ [] → ∃ job ∈ s.server.jobs, Guarded cfg job

theorem turn_admitted {job job' : Job C} {stat stat' : Option RpcstateT} (before : Admitted cfg job stat)
    (pdu : job'.pdu = job.pdu) (turn : Turn cfg busy leaks job stat job'.pc stat') : Admitted cfg job' stat' := by
  have h : job'.h = job.h := by simp only [Job.h,pdu]
  unfold Admitted at before ⊢
  rw [h,guarded_pdu pdu]
  generalize job'.pc = pc at turn
  cases turn with
  | passes passes =>
    cases passes with
    | leave => trivial
    | record pc => rw [pc] at before; exact before
    | added pc => rw [pc] at before; exact before
    | chose pc => rw [pc] at before; exact before
    | sent pc => rw [pc] at before; exact before
  | stale _ unguarded => exact ⟨rfl,unguarded⟩
  | anonymous _ zero => exact fun nonzero => absurd zero nonzero
  | guarded _ guarded => exact ⟨rfl,guarded⟩
  | created pc => rw [pc] at before; exact before
  | fresh pc | dropped pc | again pc | forgotten pc => rw [pc] at before; exact fun _ => before.2
  | ran pc => rw [pc] at before; exact before
  | stored pc => rw [pc] at before; exact before
  | ended => trivial

theorem step_admitted (kept : Kept s) (tally : Tally cfg s) (joint : Joint cfg s label s') (k : Nat) (other : Job C)
    (its : Local) (found : s'.server.jobs[k]? = some other) (stood : s'.mem.locals[k]? = some its) :
    Admitted cfg other its.stat := by
  rcases joint_turn kept joint with ⟨jobs,locals⟩ | ⟨c,pdu,junk,jobs,locals⟩ |
    ⟨j,job,job',loc,new,held,standing,jobs,locals,pdu,turn⟩ <;> rw [jobs] at found <;> rw [locals] at stood
  · exact tally.admitted k other its found stood
  · rcases pair_append kept.aligned found stood with ⟨before,its_before⟩ | ⟨rfl,rfl⟩
    · exact tally.admitted k other its before its_before
    · exact rfl
  · rcases pair_cases found stood with ⟨rfl,rfl,rfl⟩ | ⟨_,before,its_before⟩
    · exact turn_admitted (tally.admitted k job loc held standing) pdu turn
    · exact tally.admitted k other its before its_before

theorem New.kept (kept : Kept s) (tally : Tally cfg s) (joint : Joint cfg s label s') (new : New s clt) : New s' clt := by
  obtain ⟨k,job,loc,held,standing,nonce,stat⟩ := new
  rcases joint_turn kept joint with ⟨jobs,locals⟩ | ⟨c,pdu,junk,jobs,locals⟩ |
    ⟨j,old,old',its,its',found,stood,jobs,locals,pdu,turn⟩
  · exact ⟨k,job,loc,jobs ▸ held,locals ▸ standing,nonce,stat⟩
  · exact ⟨k,job,loc,by rw [jobs]; exact entry_kept held,by rw [locals]; exact entry_kept standing,nonce,stat⟩
  · by_cases same : k = j
    · subst same
      cases Option.some.inj (held.symm.trans found)
      cases Option.some.inj (standing.symm.trans stood)
      have admitted := tally.admitted k job loc held standing
      have still : its'.stat = some .NEW := by
        unfold Admitted at admitted
        generalize old'.pc = pc at turn
        generalize its'.stat = after at turn ⊢
        cases turn with
        | passes | created | ran | stored | ended => exact stat
        | anonymous => rfl
        | fresh => rfl
        | stale pc | guarded pc =>
          rw [pc,stat] at admitted
          cases admitted
        | dropped pc | again pc | forgotten pc =>
          rw [pc,stat] at admitted
          cases admitted.1
      exact ⟨k,old',its',by rw [jobs]; exact entry_self held,by rw [locals]; exact entry_self standing,
        by rw [← nonce,Job.h,Job.h,pdu],still⟩
    · exact ⟨k,job,loc,by rw [jobs]; exact (entry_other same).trans held,
        by rw [locals]; exact (entry_other same).trans standing,nonce,stat⟩

theorem window_find {m : Mem} (found : (window m clt').windows.find clt = some entries) (some_ : entries ≠ []) :
    m.windows.find clt = some entries := by
  unfold window at found
  split at found
  · by_cases same : clt = clt'
    · rw [same,OrderedMap.find_assign_self] at found
      exact absurd (Option.some.inj found).symm some_
    · rwa [OrderedMap.find_assign_other _ same] at found
  · exact found

theorem add_find {m : Mem} {job : Job C} {loc : Local} (found : (add m job loc).windows.find clt = some entries)
    (some_ : entries ≠ []) : ∃ before, m.windows.find clt = some before ∧ before ≠ [] := by
  unfold add at found
  split at found
  · by_cases same : clt = job.h.cltNonce
    · dsimp only at found
      rw [same,OrderedMap.find_assign_self] at found
      rw [same]
      cases known : m.windows.find job.h.cltNonce with
      | none =>
        rw [known] at found
        exact absurd (Option.some.inj found).symm some_
      | some before =>
        refine ⟨before,rfl,fun empty => ?_⟩
        rw [known,empty] at found
        exact some_ (Option.some.inj found).symm
    · exact ⟨entries,(OrderedMap.find_assign_other _ same).symm.trans found,some_⟩
  · exact ⟨entries,found,some_⟩

theorem check_find {m : Mem} {job : Job C} (found : (check m j job loc).windows.find clt = some entries) (some_ : entries ≠ []) :
    (∃ before, m.windows.find clt = some before ∧ before ≠ []) ∨
      clt = job.h.cltNonce ∧ ∃ heap, (check m j job loc).locals = m.locals.set j (answered heap job loc ⟨.NEW,none⟩).2 := by
  unfold check at found ⊢
  cases known : m.windows.find job.h.cltNonce with
  | none =>
    rw [known] at found
    exact .inl ⟨entries,found,some_⟩
  | some before =>
    rw [known] at found
    by_cases same : clt = job.h.cltNonce
    · cases before with
      | nil => exact .inr ⟨same,m.heap,rfl⟩
      | cons it rest => exact .inl ⟨it :: rest,by rw [same,known],by simp⟩
    · exact .inl ⟨entries,(OrderedMap.find_assign_other _ same).symm.trans found,some_⟩

theorem step_entries (kept : Kept s) (tally : Tally cfg s) (joint : Joint cfg s label s') (clt : UInt32) (entries : List Entry)
    (found : s'.mem.windows.find clt = some entries) (some_ : entries ≠ []) : New s' clt := by
  have earlier : (∃ before, s.mem.windows.find clt = some before ∧ before ≠ []) → New s' clt :=
    fun ⟨before,known,filled⟩ => (tally.entries clt before known filled).kept kept tally joint
  cases id joint with
  | outside | taken | passed | opened | refused | ran | ended => exact earlier ⟨entries,found,some_⟩
  | created => exact earlier ⟨entries,window_find found some_,some_⟩
  | stored => exact earlier (add_find found some_)
  | answered held standing jobs =>
    rcases check_find found some_ with before | ⟨same,heap,locals⟩
    · exact earlier before
    · refine ⟨_,_,_,jobs ▸ entry_self held,locals ▸ entry_self standing,?_,rfl⟩
      rw [same,Job.h,Job.h,afterCheck_pdu]

theorem step_passed (kept : Kept s) (tally : Tally cfg s) (joint : Joint cfg s label s') (k : Nat) (other : Job C)
    (found : s'.server.jobs[k]? = some other) (guarded : Guarded cfg other) (pc : past other.pc) :
    New s' other.h.cltNonce := by
  have earlier : ∀ job : Job C, New s job.h.cltNonce → other.pdu = job.pdu → New s' other.h.cltNonce := fun job new pdu => by
    rw [Job.h,pdu]
    exact new.kept kept tally joint
  rcases joint_turn kept joint with ⟨jobs,_⟩ | ⟨c,pdu,junk,jobs,_⟩ | ⟨j,job,job',loc,new,held,standing,jobs,locals,pdu,turn⟩
  · exact earlier other (tally.passed k other (jobs ▸ found) guarded pc) rfl
  · rw [jobs] at found
    rcases entry_append found with before | ⟨_,rfl⟩
    · exact earlier other (tally.passed k other before guarded pc) rfl
    · exact absurd rfl pc.1
  · rcases entry_cases (jobs ▸ found) with ⟨rfl,rfl⟩ | ⟨_,before⟩
    · have its := (guarded_pdu pdu).mp guarded
      have still : past job.pc → New s' other.h.cltNonce := fun before =>
        earlier job (tally.passed k job held its before) pdu
      have busy : Busy s job.h.cltNonce → New s' other.h.cltNonce := fun known => by
        obtain ⟨entries,known,filled⟩ := known
        exact earlier job (tally.entries _ entries known filled) pdu
      generalize at_ : other.pc = after at turn
      generalize stat : new.stat = its' at turn
      cases turn with
      | passes passes =>
        cases passes with
        | leave _ unguarded => exact absurd its unguarded
        | record => exact absurd at_ pc.2.2.2
        | added before | chose before | sent before => exact still (by simp [past,before])
      | stale _ unguarded => exact absurd its unguarded
      | anonymous _ zero => exact absurd zero its.2.2.2
      | guarded => exact absurd at_ pc.2.1
      | created => exact absurd at_ pc.2.2.1
      | fresh => exact ⟨k,other,new,found,locals ▸ entry_self standing,rfl,stat⟩
      | dropped _ known | again _ known | forgotten _ known => exact busy known
      | ran before | stored before => exact still (by simp [past,before])
      | ended before => exact still (by rcases before with before | ⟨before,_⟩ <;> simp [past,before])
    · exact earlier other (tally.passed k other before guarded pc) rfl

-- What is lost was the reply of a guarded request, and every executed one of
-- those loses b1.
theorem joint_lost (tally : Tally cfg s) (joint : Joint cfg s label s') :
    (∃ more, s'.mem.lost = s.mem.lost ++ more) ∧
      (s'.mem.lost ≠ [] → s.mem.lost ≠ [] ∨ ∃ job ∈ s.server.jobs, Guarded cfg job) := by
  have same : s'.mem.lost = s.mem.lost → (∃ more, s'.mem.lost = s.mem.lost ++ more) ∧
      (s'.mem.lost ≠ [] → s.mem.lost ≠ [] ∨ ∃ job ∈ s.server.jobs, Guarded cfg job) := fun equal =>
    ⟨⟨[],by rw [equal,List.append_nil]⟩,fun lost => .inl (equal ▸ lost)⟩
  have of_guarded : ∀ (j : Nat) (job : Job C) loc, s.server.jobs[j]? = some job → s.mem.locals[j]? = some loc →
      job.h.cltNonce ≠ 0 → job.pc = .add ∨ job.pc = .decref → ∃ job ∈ s.server.jobs, Guarded cfg job :=
    fun j job loc held standing nonzero pc => by
      have admitted := tally.admitted j job loc held standing
      unfold Admitted at admitted
      rcases pc with pc | pc <;> rw [pc] at admitted
      · exact ⟨job,List.mem_of_getElem? held,admitted nonzero⟩
      · exact ⟨job,List.mem_of_getElem? held,admitted nonzero⟩
  cases joint with
  | outside | taken | passed | opened | refused | ran => exact same rfl
  | created =>
    refine same ?_
    unfold window
    split <;> rfl
  | answered =>
    refine same ?_
    unfold check
    split <;> rfl
  | stored held standing _ _ pc nonzero =>
    refine ⟨?_,fun _ => .inr (of_guarded _ _ _ held standing nonzero (.inl pc))⟩
    unfold add
    split
    · exact ⟨_,rfl⟩
    · exact ⟨[],by simp⟩
  | ended held standing jobs windows pc =>
    rename_i j job loc after
    by_cases leaks : loc.stat = some .NEW ∧ job.h.cltNonce ≠ 0
    · refine ⟨⟨loc.b1.toList,by simp only [finish,setLocal,if_pos leaks]⟩,fun _ => .inr ?_⟩
      rcases pc with pc | pc
      · have admitted := tally.admitted j job loc held standing
        unfold Admitted at admitted
        rw [pc,leaks.1] at admitted
        cases admitted.1
      · exact of_guarded j job loc held standing leaks.2 (.inr pc)
    · exact same (by simp only [finish,setLocal,if_neg leaks])

theorem step_guilty (tally : Tally cfg s) (joint : Joint cfg s label s') (kept : Kept s) (lost : s'.mem.lost ≠ []) :
    ∃ job ∈ s'.server.jobs, Guarded cfg job := by
  obtain ⟨job,member,guarded⟩ : ∃ job ∈ s.server.jobs, Guarded cfg job := by
    rcases (joint_lost tally joint).2 lost with before | guarded
    · exact tally.guilty before
    · exact guarded
  rcases joint_turn kept joint with ⟨jobs,_⟩ | ⟨c,pdu,junk,jobs,_⟩ | ⟨j,old,old',_,_,held,_,jobs,_,pdu,_⟩ <;> rw [jobs]
  · exact ⟨job,member,guarded⟩
  · exact ⟨job,List.mem_append_left _ member,guarded⟩
  · obtain ⟨k,found⟩ := List.getElem?_of_mem member
    by_cases same : k = j
    · subst same
      cases Option.some.inj (held.symm.trans found)
      exact ⟨old',List.mem_of_getElem? (entry_self held),(guarded_pdu pdu).mpr guarded⟩
    · exact ⟨job,List.mem_of_getElem? ((entry_other same).trans found),guarded⟩

theorem step_leaked (kept : Kept s) (tally : Tally cfg s) (joint : Joint cfg s label s') (k : Nat) (other : Job C) (its : Local)
    (found : s'.server.jobs[k]? = some other) (stood : s'.mem.locals[k]? = some its) (new : its.stat = some .NEW)
    (nonzero : other.h.cltNonce ≠ 0) (pc : other.pc = .finished) : s'.mem.lost ≠ [] := by
  have later : s.mem.lost ≠ [] → s'.mem.lost ≠ [] := fun lost => by
    obtain ⟨more,grown⟩ := (joint_lost tally joint).1
    rw [grown]
    exact fun empty => lost (List.append_eq_nil_iff.mp empty).1
  rcases joint_turn kept joint with ⟨jobs,locals⟩ | ⟨c,pdu,junk,jobs,locals⟩ |
    ⟨j,job,job',loc,loc',held,standing,jobs,locals,pdu,turn⟩ <;> rw [jobs] at found <;> rw [locals] at stood
  · exact later (tally.leaked k other its found stood new nonzero pc)
  · rcases pair_append kept.aligned found stood with ⟨before,its_before⟩ | ⟨rfl,_⟩
    · exact later (tally.leaked k other its before its_before new nonzero pc)
    · cases pc
  · rcases pair_cases found stood with ⟨rfl,rfl,rfl⟩ | ⟨_,before,its_before⟩
    · have admitted := tally.admitted k job loc held standing
      have nonce : job.h.cltNonce ≠ 0 := by rw [Job.h,← pdu]; exact nonzero
      unfold Admitted at admitted
      rw [pc,new] at turn
      generalize loc.stat = before at turn admitted
      cases turn with
      | passes passes =>
        cases passes with
        | leave pc => rw [pc] at admitted; cases admitted
      | ended before =>
        rcases before with pc | ⟨_,leaks⟩
        · rw [pc] at admitted; cases admitted.1
        · exact leaks rfl nonce
    · exact later (tally.leaked k other its before its_before new nonzero pc)

theorem runs_tally [DecidableEq C] {ok : State C → Rpcs.Label C → Prop} (path : Runs (step cfg) ok initial labels s) :
    Tally cfg s := by
  refine path.invariant_reached ?_ fun _ _ _ _ prior tally _ taken => ?_
  · refine ⟨by simp [initial,Rpcs.initial],fun clt entries found => ?_,by simp [initial,Rpcs.initial],
      by simp [initial,Rpcs.initial],fun lost => absurd rfl lost⟩
    cases found
  · have kept := runs_kept prior
    have joint := step_joint kept.aligned taken
    exact ⟨step_admitted kept tally joint,step_entries kept tally joint,step_passed kept tally joint,
      step_leaked kept tally joint,step_guilty tally joint kept⟩

theorem quiescent_owned (kept : Kept s) (quiet : Quiescent s) :
    s.mem.heap.Owned (windowHandles s.mem.windows ++ s.mem.lost) := by
  have idle : s.mem.locals.flatMap owns = [] := by
    refine List.flatMap_eq_nil_iff.mpr fun loc member => ?_
    obtain ⟨j,standing⟩ := List.getElem?_of_mem member
    have bound := (List.getElem?_eq_some_iff.mp standing).1
    have aligned := kept.aligned
    unfold Aligned at aligned
    have held := List.getElem?_eq_getElem (aligned ▸ bound)
    have stands := kept.stands j _ loc held standing
    have pc := quiet _ (List.mem_of_getElem? held)
    unfold Stands at stands
    rw [pc] at stands
    simp [owns,stands]
  have whole := kept.owned
  rw [owned,idle,List.nil_append] at whole
  exact whole

theorem swept_owned (whole : m.heap.Owned (windowHandles m.windows ++ m.lost)) :
    (freeReplyWindow m).heap.Owned m.lost := by
  refine Heap.Owned.freeAll (whole.perm (List.Perm.of_eq ?_))
  simp [windowHandles,handles,List.filterMap_flatMap,List.filterMap_map]

theorem accounted_iff (whole : m.heap.Owned (windowHandles m.windows ++ m.lost)) : Accounted m ↔ m.lost = [] := by
  constructor
  · intro accounted
    apply List.eq_nil_iff_forall_not_mem.mpr
    intro p member
    have live := whole.mem.mp (List.mem_append_right _ member)
    have stored := (accounted.exact p).mp live
    exact (List.nodup_append.mp whole.nodup).2.2 p stored p member rfl
  · intro nothing
    have swept := swept_owned whole
    rw [nothing] at swept whole
    rw [List.append_nil] at whole
    refine ⟨whole.nodup,fun p => whole.mem.symm,fun p => ?_⟩
    apply Option.not_isSome_iff_eq_none.mp
    exact fun live => List.not_mem_nil (swept.mem.mpr live)

theorem lost_iff (tally : Tally cfg s) (quiet : Quiescent s) :
    s.mem.lost = [] ↔ ∀ job ∈ s.server.jobs, ¬ Guarded cfg job := by
  constructor
  · intro nothing job member guarded
    obtain ⟨j,held⟩ := List.getElem?_of_mem member
    have pc := quiet job member
    -- Its client has had a request executed, which may be another one.
    obtain ⟨k,first,loc,found,standing,nonce,new⟩ := tally.passed j job held guarded (by simp [past,pc])
    have nonzero : first.h.cltNonce ≠ 0 := nonce.symm ▸ guarded.2.2.2
    exact tally.leaked k first loc found standing new nonzero (quiet first (List.mem_of_getElem? found)) nothing
  · intro innocent
    apply Classical.byContradiction
    intro lost
    obtain ⟨job,member,guarded⟩ := tally.guilty lost
    exact innocent job member guarded

theorem buffers_accounted_iff [DecidableEq C] (path : Runs (step cfg) free (initial : State C) labels s) (quiet : Quiescent s) :
    Accounted s.mem ↔ ∀ job ∈ s.server.jobs, ¬ Guarded cfg job := by
  have kept := runs_kept path
  rw [accounted_iff (quiescent_owned kept quiet)]
  exact lost_iff (runs_tally path) quiet

def server : Config := ⟨9,fun _ => none⟩

-- A bind request of the client with this nonce, from its arrival to the end of
-- dispatch.
def binding (clt : UInt8) : List (Rpcs.Label Nat) :=
  [.accept 1,.gotPdu 1 [0,0,0,28,0,0,0,1,0,0,0,1,0,0,0,clt,0,0,0,0,0,0,0,0,0,0,0,0],.take (fun _ => 0),.start 0]

def ending : List (Rpcs.Label Nat) := [.run 0 0 (.int 9),.add 0,.choose 0,.send 0,.decref 0]

theorem anonymous_accounted : ∃ s, Runs (step server) free (initial : State Nat) (binding 0 ++ ending) s ∧ Accounted s.mem := by
  have ran : (exec (step server) (initial : State Nat) (binding 0 ++ ending)).map
      (fun s => s.server.jobs.map fun job => (job.pc,job.h.cltNonce)) = some [(.finished,0)] := by decide +kernel
  obtain ⟨s,path,seen⟩ := exec_free_observed ran
  have jobs : ∀ job ∈ s.server.jobs, job.pc = .finished ∧ job.h.cltNonce = 0 := fun job member => by
    have shown := List.mem_map_of_mem (f := fun job : Job Nat => (job.pc,job.h.cltNonce)) member
    rw [seen,List.mem_singleton] at shown
    exact Prod.mk.inj shown
  refine ⟨s,path,(buffers_accounted_iff path fun job member => (jobs job member).1).mpr fun job member guarded => ?_⟩
  exact guarded.2.2.2 (jobs job member).2

-- The reply of client 7 is copied into the window and b1 is never freed.
theorem executed_request_leaks : ¬ ∀ labels (s : State Nat), Runs (step server) free initial labels s → Quiescent s →
    Accounted s.mem := by
  intro always
  have ran : (exec (step server) (initial : State Nat) (binding 7 ++ [.window 0,.record 0,.check 0] ++ ending)).map
      (fun s => (s.server.jobs.map Job.pc,(s.mem.heap.read 0).isSome,windowHandles s.mem.windows)) =
      some ([.finished],true,[1]) := by decide +kernel
  obtain ⟨s,path,seen⟩ := exec_free_observed ran
  obtain ⟨pcs,rest⟩ := Prod.mk.inj seen
  obtain ⟨live,windows⟩ := Prod.mk.inj rest
  have quiet : Quiescent s := fun job member => by
    have shown := List.mem_map_of_mem (f := Job.pc) member
    rw [pcs] at shown
    exact List.mem_singleton.mp shown
  have stored := ((always _ s path quiet).exact 0).mp live
  rw [windows] at stored
  exact absurd stored (by decide)

end YfsLab.LostBuffers
