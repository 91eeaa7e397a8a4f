import YfsLab.RefCounts

namespace YfsLab.ServerRefs
open Rpcs RefCounts

-- A server with the connections that decref has deleted, and how many answers to
-- stale requests have been sent on each.
structure State (C : Type) where
  rpcs : Rpcs.State C
  deleted : C → Bool
  lost : C → Nat

def initial {C : Type} : State C := ⟨Rpcs.initial,fun _ => false,fun _ => 0⟩

section Machine
variable {C : Type} [DecidableEq C]

def answersOld (s : Rpcs.State C) : Label C → Option C
  | .send j =>
    match s.jobs[j]? with
    | none => none
    | some job => if job.pc = .sendOld then some job.conn else none
  | _ => none

-- decref: a count that comes to zero deletes a dead connection. The address of
-- a deleted connection may be that of one accepted later.
def deletes (s s' : Rpcs.State C) (c : C) : Bool := s.refno c ≠ 0 ∧ s'.refno c = 0 ∧ s.dead c = true

def accepts (label : Label C) (c : C) : Bool :=
  match label with
  | .accept other => other = c
  | _ => false

def step (cfg : Config) (s : State C) (label : Label C) : Option (State C) :=
  (Rpcs.step cfg s.rpcs label).map fun rpcs =>
    {rpcs
     deleted:=fun c => !accepts label c && (s.deleted c || deletes s.rpcs rpcs c)
     lost:=fun c => if answersOld s.rpcs label = some c then s.lost c + 1 else s.lost c}

end Machine

section Counts
variable {C : Type} [DecidableEq C] {cfg : Config} {s s' : Rpcs.State C} {label : Label C} {j : Nat} {job : Job C}
  {lost : C → Nat}

def Counted (s : Rpcs.State C) (lost : C → Nat) : Prop := ∀ c, s.refno c = references s c + lost c

def less (s : Rpcs.State C) (lost : C → Nat) : Rpcs.State C := {s with refno:=fun c => s.refno c - lost c}

theorem counted_less (s : Rpcs.State C) (lost : C → Nat) : Conserved (less s lost) ↔ Counted s lost := by
  unfold Conserved Counted
  have same : ∀ c, references (less s lost) c = references s c := fun _ => rfl
  refine forall_congr' fun c => ?_
  rw [same]
  simp only [less]
  omega

theorem Counted.of_less {after : Rpcs.State C} (conserved : Conserved after) (refno : ∀ c, after.refno c = s'.refno c - lost c)
    (queue : after.queue = s'.queue) (jobs : after.jobs = s'.jobs) (accepted : after.accepted = s'.accepted)
    (conns : after.conns = s'.conns) : Counted s' lost := by
  intro c
  have before := conserved c
  have same : references after c = references s' c := by
    unfold references
    rw [queue,jobs,accepted,conns]
  rw [refno,same] at before
  omega

theorem bump_less (refno : C → Int) (c other : C) (by_ : Int) :
    bump (fun c => refno c - lost c) c by_ other = bump refno c by_ other - lost other := by
  rw [bump_apply,bump_apply]
  omega

theorem bump_twice_less (refno : C → Int) (c d other : C) (by_ more : Int) :
    bump (bump (fun c => refno c - lost c) c by_) d more other = bump (bump refno c by_) d more other - lost other := by
  simp only [bump_apply]
  omega

theorem job_counts (held : s.jobs[j]? = some job) (running : job.pc ≠ .finished) : references s job.conn ≠ 0 := by
  have counted : 0 < s.jobs.countP (holds job.conn) :=
    List.countP_pos_iff.mpr ⟨job,List.mem_of_getElem? held,by simp [holds,running]⟩
  unfold references
  omega

theorem conns_counts {clt : UInt32} {c : C} (known : s.conns clt = some (some c)) : references s c ≠ 0 := by
  have counted : 0 < Counting.keys s.conns (some (some c)) :=
    (Set.ncard_pos (Set.toFinite _)).mpr ⟨clt,known⟩
  unfold references
  omega

theorem accepted_counts {c : C} (member : c ∈ s.accepted) : references s c ≠ 0 := by
  unfold references
  rw [if_pos member]
  omega

theorem Counted.keeps (counted : Counted s lost) (held : s.jobs[j]? = some job) (new : Job C)
    (jobs : s'.jobs = s.jobs.set j new) (queue : s'.queue = s.queue) (accepted : s'.accepted = s.accepted)
    (refno : s'.refno = s.refno) (conns : s'.conns = s.conns) (conn : new.conn = job.conn)
    (before : job.pc ≠ .finished) (after : new.pc ≠ .finished) : Counted s' lost := by
  have conserved := (counted_less s lost).mpr counted
  refine (counted_less s' lost).mp (conserved.keeps held new jobs queue accepted ?_ conns conn before after)
  simp only [less,refno]

theorem Counted.sendOld (counted : Counted s lost) (held : s.jobs[j]? = some job) (pc : job.pc = .sendOld)
    (jobs : s'.jobs = s.jobs.set j {job with pc:=.finished}) (queue : s'.queue = s.queue)
    (accepted : s'.accepted = s.accepted) (refno : s'.refno = s.refno) (conns : s'.conns = s.conns) :
    Counted s' fun c => if job.conn = c then lost c + 1 else lost c := by
  intro c
  have before := counted c
  have moved := Counting.count_set (holds c) {job with pc:=.finished} held
  have mine : holds c job = decide (job.conn = c) := by simp [holds,pc]
  have free : holds c {job with pc:=.finished} = false := by simp [holds]
  rw [mine,free] at moved
  unfold references at before ⊢
  rw [jobs,queue,accepted,refno,conns]
  by_cases same : job.conn = c
  · simp only [same,if_true,decide_true,Bool.false_eq_true,if_false] at moved ⊢
    omega
  · simp only [same,if_false,decide_false,Bool.false_eq_true] at moved ⊢
    omega

omit [DecidableEq C] in
theorem answersOld_send (held : s.jobs[j]? = some job) (other : job.pc ≠ .sendOld) :
    answersOld s (.send j) = none := by
  simp [answersOld,held,other]

theorem counted_step (counted : Counted s lost) (distinct : s.accepted.Nodup) (taken : Rpcs.step cfg s label = some s') :
    Counted s' fun c => if answersOld s label = some c then lost c + 1 else lost c := by
  have conserved := (counted_less s lost).mpr counted
  cases step_sound taken with
  | accept fresh => exact .of_less (conserved.accept fresh) (fun _ => bump_less _ _ _ _) rfl rfl rfl rfl
  | collect =>
    have member := collected_member taken
    exact .of_less (conserved.collect distinct member) (fun _ => bump_less _ _ _ _) rfl rfl rfl rfl
  | dies | refuse | runCrash | chooseNull => exact .of_less conserved (fun _ => rfl) rfl rfl rfl rfl
  | enqueue => exact .of_less (conserved.enqueue _) (fun _ => bump_less _ _ _ _) rfl rfl rfl rfl
  | take waiting => exact .of_less (conserved.take waiting _) (fun _ => rfl) rfl rfl rfl rfl
  | leave held pc =>
    exact .of_less (conserved.finish held (by simp [pc])) (fun _ => bump_less _ _ _ _) rfl rfl rfl rfl
  | decref held pc =>
    exact .of_less (conserved.finish held (by simp [pc])) (fun _ => bump_less _ _ _ _) rfl rfl rfl rfl
  | @recordFirst _ job held pc unknown =>
    exact .of_less (conserved.recordFirst held pc unknown (.sent 0 job.conn)) (fun _ => bump_less _ _ _ _) rfl rfl rfl rfl
  | @recordOther _ job old held pc known different =>
    exact .of_less (conserved.recordOther held pc known different (.sent 0 job.conn)) (fun _ => bump_twice_less _ _ _ _ _ _) rfl rfl rfl rfl
  | @chooseLatest _ job latest held pc _ _ different =>
    exact .of_less (conserved.chooseLatest held pc different (.sent 0 job.conn)) (fun _ => bump_twice_less _ _ _ _ _ _) rfl rfl rfl rfl
  | chooseMissing held pc _ missing =>
    exact .of_less (conserved.chooseMissing missing) (fun _ => rfl) rfl rfl rfl rfl
  | check held pc =>
    refine counted.keeps held _ rfl rfl rfl rfl rfl (afterCheck_conn _ _) (by simp [pc]) ?_
    exact afterCheck_running _ _
  | stale held pc | unguarded held pc | guarded held pc | window held pc | recordKept held pc | recordCrash held pc
  | undecoded held pc | ran held pc | add held pc | addNothing held pc | chooseKept held pc =>
    exact counted.keeps held _ rfl rfl rfl rfl rfl rfl (by simp [pc]) (by simp)
  | send held pc =>
    rw [answersOld_send held (by simp [pc])]
    exact counted.keeps held _ rfl rfl rfl rfl rfl rfl (by simp [pc]) (by simp)
  | @sendOld j job held pc =>
    have answer : answersOld s (.send j) = some job.conn := by simp only [answersOld,held,pc,if_true]
    simp only [answer,Option.some.injEq]
    exact counted.sendOld held pc rfl rfl rfl rfl rfl

theorem Counted.nonzero (counted : Counted s lost) {c : C} (some_ : references s c ≠ 0) : s.refno c ≠ 0 := by
  have count := counted c
  omega

theorem bump_source {refno : C → Int} {c other : C} {by_ : Int} (after : bump refno c by_ other ≠ 0) :
    refno other ≠ 0 ∨ other = c := by
  by_cases same : other = c
  · exact .inr same
  · exact .inl (by simpa [bump_apply,same] using after)

theorem queued_member {c : C} {pdu : List UInt8} (taken : Rpcs.step cfg s (.gotPdu c pdu) = some s') : c ∈ s.accepted := by
  simp only [Rpcs.step] at taken
  split at taken
  · cases taken
  · split at taken
    · rename_i ready; exact ready.1
    · cases taken

-- Nobody takes up a connection that has no reference, but for the listener and
-- for got_pdu, which is called on connections of tcpsconn::conns_.
theorem refno_rises (counted : Counted s lost) (taken : Rpcs.step cfg s label = some s') {c : C} (after : s'.refno c ≠ 0) :
    s.refno c ≠ 0 ∨ accepts label c = true ∨ c ∈ s.accepted := by
  have running : ∀ {j : Nat} {job : Job C}, s.jobs[j]? = some job → job.pc ≠ .finished → s.refno job.conn ≠ 0 :=
    fun held running => counted.nonzero (job_counts held running)
  cases step_sound taken with
  | accept fresh =>
    rcases bump_source after with before | same
    · exact .inl before
    · exact .inr (.inl (by simp [accepts,same]))
  | collect =>
    rcases bump_source after with before | same
    · exact .inl before
    · exact .inr (.inr (same ▸ collected_member taken))
  | enqueue =>
    rcases bump_source after with before | same
    · exact .inl before
    · exact .inr (.inr (same ▸ queued_member taken))
  | leave held pc | decref held pc | recordFirst held pc =>
    rcases bump_source after with before | same
    · exact .inl before
    · exact .inl (same ▸ running held (by simp [pc]))
  | recordOther held pc known =>
    rcases bump_source after with before | same
    · rcases bump_source before with before | same
      · exact .inl before
      · exact .inl (same ▸ counted.nonzero (conns_counts known))
    · exact .inl (same ▸ running held (by simp [pc]))
  | chooseLatest held pc _ known =>
    rcases bump_source after with before | same
    · rcases bump_source before with before | same
      · exact .inl before
      · exact .inl (same ▸ running held (by simp [pc]))
    · exact .inl (same ▸ counted.nonzero (conns_counts known))
  | dies | refuse | take | stale | unguarded | guarded | window | recordKept | recordCrash | check | undecoded | ran
  | runCrash | add | addNothing | chooseKept | chooseNull | chooseMissing | send | sendOld => exact .inl after

theorem accepted_cases (taken : Rpcs.step cfg s label = some s') (c : C) :
    (c ∈ s'.accepted ↔ c ∈ s.accepted ∨ accepts label c = true) ∨
      (accepts label c = false ∧ c ∈ s.accepted ∧ s.dead c = true ∧ s.refno c = 1 ∧ s'.refno c = 0) := by
  cases step_sound taken with
  | accept fresh =>
    left
    simp [accepts,eq_comm]
  | @collect other dead count =>
    by_cases same : c = other
    · subst same
      exact .inr ⟨rfl,collected_member taken,dead,count,by simp [bump_apply,count]⟩
    · left
      simp [accepts,List.mem_erase_of_ne same]
  | dies | refuse | enqueue | take | leave | stale | unguarded | guarded | window | recordKept | recordFirst
  | recordOther | recordCrash | check | undecoded | ran | runCrash | add | addNothing | chooseKept | chooseLatest
  | chooseNull | chooseMissing | send | sendOld | decref =>
    left
    simp [accepts,log,setJob]

end Counts

section Results
variable {C : Type} [DecidableEq C] {cfg : Config} {s s' : State C} {label : Label C} {labels : List (Label C)}

structure Sound (s : State C) : Prop where
  counted : Counted s.rpcs s.lost
  distinct : s.rpcs.accepted.Nodup
  inside : ∀ c, s.rpcs.refno c ≠ 0 → c ∈ s.rpcs.accepted
  outside : ∀ c, s.deleted c = true → c ∉ s.rpcs.accepted

theorem initial_sound : Sound (initial : State C) :=
  ⟨(counted_less _ _).mp initial_conserved,List.nodup_nil,fun c some_ => absurd rfl some_,
    fun c never => by cases never⟩

theorem Sound.count (sound : Sound s) {c : C} (member : c ∈ s.rpcs.accepted) : s.rpcs.refno c ≠ 0 :=
  sound.counted.nonzero (accepted_counts member)

theorem step_keeps (sound : Sound s) (taken : step cfg s label = some s') : Sound s' := by
  obtain ⟨rpcs,inner,rfl⟩ := Option.map_eq_some_iff.mp taken
  have counted := counted_step sound.counted sound.distinct inner
  refine ⟨counted,accepted_step sound.distinct (step_sound inner),fun c after => ?_,fun c deleted member => ?_⟩
  · rcases accepted_cases inner c with same | ⟨_,_,_,_,zero⟩
    · refine same.mpr ?_
      rcases refno_rises sound.counted inner after with before | fresh | member
      · exact .inl (sound.inside c before)
      · exact .inr fresh
      · exact .inl member
    · exact absurd zero after
  · have count : rpcs.refno c ≠ 0 := counted.nonzero (accepted_counts member)
    simp only [deletes,Bool.and_eq_true,Bool.not_eq_true',Bool.or_eq_true,decide_eq_true_eq] at deleted
    obtain ⟨other,before | ⟨_,zero,_⟩⟩ := deleted
    · rcases accepted_cases inner c with same | ⟨_,_,_,_,zero⟩
      · rcases same.mp member with old | fresh
        · exact sound.outside c before old
        · exact absurd fresh (by simp [other])
      · exact count zero
    · exact count zero

theorem runs_sound (path : Machine.Runs (step cfg) Machine.free (initial : State C) labels s) : Sound s :=
  path.invariant initial_sound fun _ _ _ sound _ taken => step_keeps sound taken

end Results

end YfsLab.ServerRefs
