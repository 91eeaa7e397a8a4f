import YfsLab.Lib.Counting
import YfsLab.Rpcs

namespace YfsLab.RefCounts
open Rpcs

variable {C : Type} [DecidableEq C] {cfg : Config} {s s' : State C} {label : Label C} {j : Nat} {job : Job C}

instance uint32Finite : Finite UInt32 := Finite.of_injective UInt32.toFin fun _ _ same => UInt32.toFin_inj.mp same

def holds (c : C) (job : Job C) : Bool := job.pc ≠ .finished ∧ job.conn = c

-- The references to a connection: tcpsconn::conns_, the jobs queued and running,
-- and the client nonces that rpcs::conns_ maps to it.
noncomputable def references (s : State C) (c : C) : Nat :=
  (if c ∈ s.accepted then 1 else 0) + s.queue.countP (fun queued => queued.1 = c) + s.jobs.countP (holds c) +
    Counting.keys s.conns (some (some c))

def Conserved (s : State C) : Prop := ∀ c, s.refno c = references s c

def Stale (cfg : Config) (h : ReqHeader) : Prop := h.srvNonce ≠ 0 ∧ h.srvNonce ≠ cfg.nonce

def Current (cfg : Config) (s : State C) : Label C → Prop
  | .send j => ∀ job, s.jobs[j]? = some job → ¬ Stale cfg job.h
  | _ => True

instance (cfg : Config) (h : ReqHeader) : Decidable (Stale cfg h) := inferInstanceAs (Decidable (_ ∧ _))

theorem bump_apply (refno : C → Int) (c other : C) (by_ : Int) :
    bump refno c by_ other = refno other + (if other = c then by_ else 0) := by
  unfold bump
  split <;> simp

theorem Conserved.moves (conserved : Conserved s) (held : s.jobs[j]? = some job) (new : Job C)
    (jobs : s'.jobs = s.jobs.set j new) (queue : s'.queue = s.queue) (accepted : s'.accepted = s.accepted) :
    Conserved s' ↔ ∀ c, s'.refno c + (if holds c job then 1 else 0 : Nat) + Counting.keys s.conns (some (some c)) =
      s.refno c + (if holds c new then 1 else 0 : Nat) + Counting.keys s'.conns (some (some c)) := by
  apply forall_congr'
  intro c
  have before := conserved c
  have moved := Counting.count_set (holds c) new held
  unfold references at before ⊢
  rw [jobs,queue,accepted]
  omega

theorem Conserved.keeps (conserved : Conserved s) (held : s.jobs[j]? = some job) (new : Job C)
    (jobs : s'.jobs = s.jobs.set j new) (queue : s'.queue = s.queue) (accepted : s'.accepted = s.accepted)
    (refno : s'.refno = s.refno) (conns : s'.conns = s.conns) (conn : new.conn = job.conn)
    (before : job.pc ≠ .finished) (after : new.pc ≠ .finished) : Conserved s' := by
  refine (conserved.moves held new jobs queue accepted).mpr fun c => ?_
  rw [refno,conns]
  simp [holds,before,after,conn]

theorem Conserved.accept (conserved : Conserved s) (fresh : c ∉ s.accepted) :
    Conserved {s with accepted:=s.accepted ++ [c],refno:=bump s.refno c 1} := by
  intro other
  have before := conserved other
  unfold references at before ⊢
  dsimp only
  rw [bump_apply,before]
  by_cases same : other = c
  · subst same
    simp [fresh]
    omega
  · simp [same]

theorem Conserved.collect (conserved : Conserved s) (distinct : s.accepted.Nodup) (member : c ∈ s.accepted) :
    Conserved {s with accepted:=s.accepted.erase c,refno:=bump s.refno c (-1)} := by
  intro other
  have before := conserved other
  unfold references at before ⊢
  dsimp only
  rw [bump_apply,before]
  by_cases same : other = c
  · subst same
    simp [distinct.mem_erase_iff,member]
    omega
  · simp [same,distinct.mem_erase_iff]

theorem Conserved.enqueue (conserved : Conserved s) (pdu : List UInt8) :
    Conserved {s with queue:=s.queue ++ [(c,pdu)],refno:=bump s.refno c 1} := by
  intro other
  have before := conserved other
  unfold references at before ⊢
  dsimp only
  rw [bump_apply,before]
  by_cases same : other = c
  · subst same
    simp
    omega
  · simp [same,Ne.symm same]

theorem Conserved.take (conserved : Conserved s) (waiting : s.queue = (c,pdu) :: rest) (junk : Nat → UInt8) :
    Conserved {s with queue:=rest,jobs:=s.jobs ++ [⟨c,c,pdu,junk,[],.start⟩]} := by
  intro other
  have before := conserved other
  unfold references at before ⊢
  dsimp only
  rw [before,waiting]
  by_cases same : c = other
  · simp [same,holds]
    omega
  · simp [same,holds]

theorem Conserved.finish (conserved : Conserved s) (held : s.jobs[j]? = some job) (running : job.pc ≠ .finished) :
    Conserved (setJob {s with refno:=bump s.refno job.conn (-1)} j {job with pc:=.finished}) := by
  refine (conserved.moves held {job with pc:=.finished} ?_ ?_ ?_).mpr fun c => ?_
  iterate 3 rfl
  simp only [setJob,bump_apply]
  by_cases same : c = job.conn
  · subst same
    simp [holds,running]
  · simp [holds,same,Ne.symm same]

theorem Conserved.recordFirst (conserved : Conserved s) (held : s.jobs[j]? = some job) (pc : job.pc = .record)
    (unknown : s.conns job.h.cltNonce = none) (event : Event C) :
    Conserved {log (setJob s j {job with pc:=.check}) event with
      conns:=fun n => if n = job.h.cltNonce then some (some job.conn) else s.conns n
      refno:=bump s.refno job.conn 1} := by
  refine (conserved.moves held {job with pc:=.check} ?_ ?_ ?_).mpr fun c => ?_
  iterate 3 rfl
  have keys := Counting.keys_update s.conns job.h.cltNonce (some (some job.conn)) (some (some c))
  simp only [unknown,reduceCtorEq,if_false,Option.some.injEq] at keys
  simp only [bump_apply,holds,pc]
  by_cases same : c = job.conn
  · subst same
    simp at keys ⊢
    omega
  · simp [same,Ne.symm same] at keys ⊢
    omega

theorem Conserved.recordOther (conserved : Conserved s) (held : s.jobs[j]? = some job) (pc : job.pc = .record)
    (known : s.conns job.h.cltNonce = some (some old)) (different : old ≠ job.conn) (event : Event C) :
    Conserved {log (setJob s j {job with pc:=.check}) event with
      conns:=fun n => if n = job.h.cltNonce then some (some job.conn) else s.conns n
      refno:=bump (bump s.refno old (-1)) job.conn 1} := by
  refine (conserved.moves held {job with pc:=.check} ?_ ?_ ?_).mpr fun c => ?_
  iterate 3 rfl
  have keys := Counting.keys_update s.conns job.h.cltNonce (some (some job.conn)) (some (some c))
  simp only [known,Option.some.injEq] at keys
  simp only [bump_apply,holds,pc]
  by_cases mine : c = job.conn
  · subst mine
    simp [different,Ne.symm different] at keys ⊢
    omega
  · by_cases other : c = old
    · subst other
      simp [mine,Ne.symm mine] at keys ⊢
      omega
    · simp [mine,Ne.symm mine,other,Ne.symm other] at keys ⊢
      omega

theorem Conserved.chooseLatest (conserved : Conserved s) (held : s.jobs[j]? = some job) (pc : job.pc = .choose)
    (different : latest ≠ job.conn) (event : Event C) :
    Conserved {log (setJob s j {job with conn:=latest,pc:=.send}) event with
      refno:=bump (bump s.refno job.conn (-1)) latest 1} := by
  refine (conserved.moves held {job with conn:=latest,pc:=.send} ?_ ?_ ?_).mpr fun c => ?_
  iterate 3 rfl
  simp only [bump_apply,holds,pc]
  by_cases mine : c = job.conn
  · subst mine
    simp [different,Ne.symm different]
  · by_cases other : c = latest
    · subst other
      simp [mine,Ne.symm mine]
    · simp [mine,Ne.symm mine,other,Ne.symm other]

theorem Conserved.chooseMissing (conserved : Conserved s) (missing : s.conns clt = none) :
    Conserved {s with conns:=fun n => if n = clt then some none else s.conns n,crashed:=true} := by
  intro c
  have before := conserved c
  have keys := Counting.keys_update s.conns clt (some none) (some (some c))
  simp only [missing,reduceCtorEq,if_false,Option.some.injEq] at keys
  unfold references at before ⊢
  dsimp only
  omega

-- The answer to a stale request ends its dispatch and leaves its reference.
theorem Conserved.sendOld (conserved : Conserved s) (held : s.jobs[j]? = some job) (pc : job.pc = .sendOld)
    (event : Event C) : ¬ Conserved (log (setJob s j {job with pc:=.finished}) event) := by
  intro after
  have jobs : (log (setJob s j {job with pc:=.finished}) event).jobs = s.jobs.set j {job with pc:=.finished} := rfl
  have change := (conserved.moves held {job with pc:=.finished} jobs rfl rfl).mp after job.conn
  simp [holds,pc,log,setJob] at change

-- A dispatch is past the test of srv_nonce, or on its way out of it.
def Screened (cfg : Config) (job : Job C) : Prop :=
  match job.pc with
  | .start | .finished => True
  | .sendOld => Stale cfg job.h
  | _ => ¬ Stale cfg job.h

def AllScreened (cfg : Config) (s : State C) : Prop := ∀ (i : Nat) (job : Job C), s.jobs[i]? = some job → Screened cfg job

omit [DecidableEq C] in
theorem AllScreened.set (all : AllScreened cfg s) (jobs : s'.jobs = s.jobs.set j new) (screened : Screened cfg new) :
    AllScreened cfg s' := by
  intro i job there
  rw [jobs] at there
  rcases Machine.entry_cases there with ⟨_,rfl⟩ | ⟨_,old⟩
  · exact screened
  · exact all i job old

omit [DecidableEq C] in
theorem afterCheck_screened (answer : ReplyWindow.Answer) (current : ¬ Stale cfg job.h) :
    Screened cfg (afterCheck job answer) := by
  unfold afterCheck
  split <;> exact current

omit [DecidableEq C] in
theorem AllScreened.current (all : AllScreened cfg s) (held : s.jobs[j]? = some job) (started : job.pc ≠ .start)
    (running : job.pc ≠ .finished) (passed : job.pc ≠ .sendOld) : ¬ Stale cfg job.h := by
  have screened := all j job held
  unfold Screened at screened
  split at screened <;> simp_all

omit [DecidableEq C] in
theorem AllScreened.old (all : AllScreened cfg s) (held : s.jobs[j]? = some job) (pc : job.pc = .sendOld) :
    Stale cfg job.h := by
  have screened := all j job held
  unfold Screened at screened
  simpa [pc] using screened

omit [DecidableEq C] in
theorem afterCheck_conn (job : Job C) (answer : ReplyWindow.Answer) : (afterCheck job answer).conn = job.conn := by
  unfold afterCheck
  split <;> rfl

omit [DecidableEq C] in
theorem afterCheck_running (job : Job C) (answer : ReplyWindow.Answer) : (afterCheck job answer).pc ≠ .finished := by
  unfold afterCheck
  split <;> simp

theorem AllScreened.step (all : AllScreened cfg s) (step : Step cfg s label s') : AllScreened cfg s' := by
  cases step with
  | accept | collect | dies | refuse | enqueue | runCrash | chooseNull | chooseMissing => exact all
  | take waiting =>
    intro i job there
    rcases Machine.entry_append there with old | ⟨_,rfl⟩
    · exact all i job old
    · trivial
  | leave held pc => exact all.set rfl trivial
  | stale held pc _ old other => exact all.set rfl ⟨old,other⟩
  | unguarded held pc _ good => exact all.set rfl (show ¬ Stale cfg _ from fun stale => good.elim stale.1 stale.2)
  | guarded held pc _ good => exact all.set rfl (show ¬ Stale cfg _ from fun stale => good.elim stale.1 stale.2)
  | check held pc => exact all.set rfl (afterCheck_screened _ (all.current held (by simp [pc]) (by simp [pc]) (by simp [pc])))
  | sendOld held pc | decref held pc => exact all.set rfl trivial
  | window held pc | recordKept held pc | recordFirst held pc | recordOther held pc | recordCrash held pc
  | undecoded held pc | ran held pc | add held pc | addNothing held pc | chooseKept held pc | chooseLatest held pc
  | send held pc =>
    have fresh := all.current held (by simp [pc]) (by simp [pc]) (by simp [pc])
    exact all.set rfl fresh

-- tcpsconn::conns_ is a map: no connection is in it twice, and the collector
-- takes what it finds there.
theorem accepted_step (distinct : s.accepted.Nodup) (step : Step cfg s label s') : s'.accepted.Nodup := by
  cases step with
  | accept fresh => simpa using distinct.concat fresh
  | collect => exact distinct.erase _
  | _ => exact distinct

theorem collected_member (taken : step cfg s (.collect c) = some s') : c ∈ s.accepted := by
  simp only [step] at taken
  split at taken
  · cases taken
  · split at taken
    · rename_i ready; exact ready.1
    · cases taken

theorem conserved_step (conserved : Conserved s) (distinct : s.accepted.Nodup) (screened : AllScreened cfg s)
    (taken : step cfg s label = some s') : Conserved s' ↔ Current cfg s label := by
  have rule := step_sound taken
  cases rule with
  | accept fresh => exact iff_of_true (conserved.accept fresh) trivial
  | collect => exact iff_of_true (conserved.collect distinct (collected_member taken)) trivial
  | dies | refuse | runCrash | chooseNull => exact iff_of_true conserved trivial
  | enqueue => exact iff_of_true (conserved.enqueue _) trivial
  | take waiting => exact iff_of_true (conserved.take waiting _) trivial
  | leave held pc => exact iff_of_true (conserved.finish held (by simp [pc])) trivial
  | decref held pc => exact iff_of_true (conserved.finish held (by simp [pc])) trivial
  | recordFirst held pc unknown => exact iff_of_true (conserved.recordFirst held pc unknown _) trivial
  | recordOther held pc known different =>
    exact iff_of_true (conserved.recordOther held pc known different _) trivial
  | chooseLatest held pc _ _ different => exact iff_of_true (conserved.chooseLatest held pc different _) trivial
  | chooseMissing held pc _ missing => exact iff_of_true (conserved.chooseMissing missing) trivial
  | check held pc =>
    refine iff_of_true (conserved.keeps held _ rfl rfl rfl rfl rfl (afterCheck_conn _ _) (by simp [pc]) ?_) trivial
    exact afterCheck_running _ _
  | stale held pc | unguarded held pc | guarded held pc | window held pc | recordKept held pc | recordCrash held pc
  | undecoded held pc | ran held pc | add held pc | addNothing held pc | chooseKept held pc =>
    exact iff_of_true (conserved.keeps held _ rfl rfl rfl rfl rfl rfl (by simp [pc]) (by simp)) trivial
  | send held pc =>
    refine iff_of_true (conserved.keeps held _ rfl rfl rfl rfl rfl rfl (by simp [pc]) (by simp)) ?_
    intro job same
    cases Option.some.inj (held.symm.trans same)
    exact screened.current held (by simp [pc]) (by simp [pc]) (by simp [pc])
  | sendOld held pc =>
    refine iff_of_false (conserved.sendOld held pc _) fun current => ?_
    exact current _ held (screened.old held pc)

theorem runs_screened {ok : State C → Label C → Prop} (path : Machine.Runs (step cfg) ok initial labels s) :
    s.accepted.Nodup ∧ AllScreened cfg s := by
  apply path.invariant
  case start => exact ⟨List.nodup_nil,by simp [AllScreened,initial]⟩
  case preserved =>
    intro before label after valid _ taken
    exact ⟨accepted_step valid.1 (step_sound taken),valid.2.step (step_sound taken)⟩

theorem initial_conserved : Conserved (initial : State C) := by
  intro c
  simp [initial,references,Counting.keys]

theorem runs_conserved (path : Machine.Runs (step cfg) (Current cfg) (initial : State C) labels s) : Conserved s := by
  apply path.invariant_reached initial_conserved
  intro earlier before label after reached conserved current taken
  obtain ⟨distinct,screened⟩ := runs_screened reached
  exact (conserved_step conserved distinct screened taken).mpr current

theorem references_conserved_iff (path : Machine.Runs (step cfg) Machine.free (initial : State C) labels s) :
    (∀ earlier later mid, labels = earlier ++ later →
      Machine.Runs (step cfg) Machine.free (initial : State C) earlier mid → Conserved mid) ↔
      Machine.Runs (step cfg) (Current cfg) (initial : State C) labels s := by
  apply path.throughout_iff Conserved initial_conserved
  intro earlier before label after reached _ _ taken conserved
  obtain ⟨distinct,screened⟩ := runs_screened reached
  exact conserved_step conserved distinct screened taken

def server : Config := ⟨9,fun _ => none⟩

def bindFor (srv : UInt8) : List UInt8 := [0,0,0,28,0,0,0,1,0,0,0,1,0,0,0,7,0,0,0,srv,0,0,0,0,0,0,0,0]

-- The request of the present instance, from its arrival to the last decref.
def served : List (Label Nat) :=
  [.accept 1,.gotPdu 1 (bindFor 9),.take (fun _ => 0),.start 0,.window 0,.record 0,.check 0,.run 0 0 (.int 9),.add 0,
   .choose 0,.send 0,.decref 0]

def refused : List (Label Nat) :=
  [.accept 1,.gotPdu 1 (bindFor 8),.take (fun _ => 0),.start 0,.send 0]

instance (cfg : Config) (s : State C) (label : Label C) : Decidable (Current cfg s label) :=
  match label with
  | .send j =>
    match held : s.jobs[j]? with
    | none => .isTrue (by simp [Current,held])
    | some job => decidable_of_iff (¬ Stale cfg job.h) (by simp [Current,held])
  | .accept _ | .collect _ | .dies _ | .gotPdu _ _ | .take _ | .start _ | .window _ | .record _ | .check _
  | .run _ _ _ | .add _ | .choose _ | .decref _ => .isTrue trivial

theorem served_conserved : ∃ s, Machine.Runs (step server) Machine.free (initial : State Nat) served s ∧
    s.refno 1 = 2 ∧ ∀ earlier later mid, served = earlier ++ later →
      Machine.Runs (step server) Machine.free (initial : State Nat) earlier mid → Conserved mid := by
  have ran : (Machine.exec (Machine.guarded (step server) (Current server)) (initial : State Nat) served).map
      (·.refno 1) = some 2 := by decide +kernel
  obtain ⟨s,path,count⟩ := Machine.guarded_observed ran
  have anyway := path.unrestricted
  exact ⟨s,anyway,count,(references_conserved_iff anyway).mpr path⟩

-- The dispatch is over and nothing else is left of the request, yet the
-- connection keeps the reference of got_pdu, and will not be collected.
theorem refused_leaks : ∃ s, Machine.Runs (step server) Machine.free (initial : State Nat) refused s ∧
    s.refno 1 = 2 ∧ s.queue.length = 0 ∧ s.jobs.map (·.pc) = [.finished] ∧ ¬ Conserved s := by
  have before : (Machine.exec (Machine.guarded (step server) (Current server)) (initial : State Nat) (refused.take 4)).map
      (fun s => s.jobs.map (·.pc)) = some [.sendOld] := by decide +kernel
  have ran : (Machine.exec (step server) (initial : State Nat) (refused.take 4 ++ [.send 0])).map
      (fun s => (s.refno 1,s.queue.length,s.jobs.map (·.pc))) = some (2,0,[.finished]) := by decide +kernel
  obtain ⟨mid,front,waiting⟩ := Machine.guarded_observed before
  obtain ⟨s,path,seen⟩ := Machine.exec_free_observed ran
  obtain ⟨there,prior,_,taken⟩ := path.snoc_inv
  cases front.deterministic prior
  obtain ⟨distinct,screened⟩ := runs_screened front
  refine ⟨s,path,congrArg (·.1) seen,congrArg (·.2.1) seen,congrArg (·.2.2) seen,fun conserved => ?_⟩
  have current := (conserved_step (runs_conserved front) distinct screened taken).mp conserved
  obtain ⟨job,only,pc⟩ := List.map_eq_singleton_iff.mp waiting
  have held : mid.jobs[0]? = some job := by simp [only]
  exact current job held (screened.old held pc)

end YfsLab.RefCounts
