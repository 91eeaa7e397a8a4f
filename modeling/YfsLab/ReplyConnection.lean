import YfsLab.ReplyTarget

namespace YfsLab.ReplyConnection
open Machine Rpcs

variable {C : Type}

def CameOn (s : State C) (clt : UInt32) (c : C) : Prop :=
  ∃ (k : Nat) (job : Job C), s.jobs[k]? = some job ∧ job.h.cltNonce = clt ∧ job.arrived = c

-- A connection on which a dispatch may answer. Clients with clt_nonce 0 are not
-- told apart, so for them it is only the one the request came on.
def Right (s : State C) (job : Job C) (c : C) : Prop :=
  c = job.arrived ∨ job.h.cltNonce ≠ 0 ∧ CameOn s job.h.cltNonce c

def NoNull (s : State C) : Prop := ∀ clt, s.conns clt ≠ some none

variable [DecidableEq C] {cfg : Config} {s s' : State C} {label : Label C} {j : Nat} {job job' : Job C} {c : C} {clt : UInt32}

-- What is asked of a step: conns_ holds no NULL after it, the choice of the
-- connection ends with one to send on, and a reply is sent on a right one.
def RepliesWell (cfg : Config) (s : State C) (label : Label C) : Prop :=
  ∀ s', step cfg s label = some s' → NoNull s' ∧
    match label with
    | .choose j => ∃ job : Job C, s'.jobs[j]? = some job ∧ job.pc = .send
    | .send j => ∀ job : Job C, s.jobs[j]? = some job → Right s job job.conn
    | _ => True

-- The handler of a request with clt_nonce 0 returns before the connection of
-- the request has died.
def AnonymousAlive (s : State C) : Label C → Prop
  | .choose j => ∀ job : Job C, s.jobs[j]? = some job → job.h.cltNonce = 0 → s.dead job.conn = false
  | _ => True

def recordedBefore (pc : Pc) : Prop := pc = .check ∨ pc = .run ∨ pc = .add ∨ pc = .choose

-- conns_ holds connections of the right clients, never an entry for 0, and one
-- for each client whose request has passed the record.
structure Owned (s : State C) : Prop where
  conns : ∀ clt c, s.conns clt = some (some c) → clt ≠ 0 ∧ CameOn s clt c
  jobs : ∀ (j : Nat) job, s.jobs[j]? = some job → Right s job job.conn
  known : ∀ (j : Nat) job, s.jobs[j]? = some job → job.h.cltNonce ≠ 0 → recordedBefore job.pc → s.conns job.h.cltNonce ≠ none

omit [DecidableEq C] in
theorem initial_owned : Owned (initial : State C) :=
  ⟨by simp [initial],by simp [initial],by simp [initial]⟩

theorem CameOn.kept (step : Step cfg s label s') (came : CameOn s clt c) : CameOn s' clt c := by
  obtain ⟨k,job,held,nonce,arrived⟩ := came
  obtain ⟨job',held',pdu,same⟩ := step_job_kept step held
  exact ⟨k,job',held',by rw [Job.h,pdu]; exact nonce,same.trans arrived⟩

omit [DecidableEq C] in
theorem Right.came (held : s.jobs[j]? = some job) (right : Right s job c) : CameOn s job.h.cltNonce c := by
  rcases right with rfl | ⟨_,came⟩
  · exact ⟨j,job,held,rfl,rfl⟩
  · exact came

theorem Right.kept (step : Step cfg s label s') (arrived : job'.arrived = job.arrived) (h : job'.h = job.h)
    (right : Right s job c) : Right s' job' c := by
  rw [Right,arrived,h]
  exact right.imp_right fun ⟨nonzero,came⟩ => ⟨nonzero,came.kept step⟩

theorem step_conns (owned : Owned s) (valid : ReplyTarget.Invariant s) (rule : Step cfg s label s') (clt : UInt32) (c : C)
    (found : s'.conns clt = some (some c)) : clt ≠ 0 ∧ CameOn s' clt c := by
  have kept : s.conns clt = some (some c) → clt ≠ 0 ∧ CameOn s' clt c := fun before =>
    (owned.conns clt c before).imp_right (·.kept rule)
  cases id rule with
  | @recordFirst j job held pc | @recordOther j job _ held pc =>
    simp only at found
    split at found
    · rename_i same
      cases found
      rw [same]
      exact ⟨valid.nonzero j job held (.inr (.inl pc)),(Right.came held (owned.jobs j job held)).kept rule⟩
    · exact kept found
  | chooseMissing =>
    simp only at found
    split at found
    · cases found
    · exact kept found
  | _ => exact kept found

theorem step_right (owned : Owned s) (rule : Step cfg s label s') (i : Nat) (job : Job C) (held : s'.jobs[i]? = some job) :
    Right s' job job.conn := by
  have kept : s.jobs[i]? = some job → Right s' job job.conn := fun before => (owned.jobs i job before).kept rule rfl rfl
  rcases step_jobs rule with same | ⟨c,pdu,junk,rest,_,same⟩ | ⟨j,old,new,_,found,same,moves⟩ <;> rw [same] at held
  · exact kept held
  · rcases entry_append held with before | ⟨_,rfl⟩
    · exact kept before
    · exact .inl rfl
  · rcases entry_cases held with ⟨rfl,rfl⟩ | ⟨_,other⟩
    · rcases moves.conn with stays | ⟨_,latest⟩
      · rw [stays]
        exact (owned.jobs i old found).kept rule moves.arrived moves.h
      · obtain ⟨nonzero,came⟩ := owned.conns _ _ latest
        rw [← moves.h] at nonzero came
        exact .inr ⟨nonzero,came.kept rule⟩
    · exact kept other

theorem step_conns_known (rule : Step cfg s label s') (known : s.conns clt ≠ none) : s'.conns clt ≠ none := by
  cases rule with
  | recordFirst | recordOther | chooseMissing =>
    simp only
    split
    · simp
    · exact known
  | _ => exact known

theorem record_known (rule : Step cfg s label s') (own : label.job = some j) (held : s.jobs[j]? = some job)
    (pc : job.pc = .record) : s'.conns job.h.cltNonce ≠ none := by
  have same : ∀ other : Job C, s.jobs[j]? = some other → other = job :=
    fun other again => Option.some.inj (again.symm.trans held)
  cases rule with
  | recordKept found _ known | recordCrash found _ known =>
    cases Option.some.inj own
    cases same _ found
    rw [log_conns,setJob_conns,known]
    simp
  | recordFirst found | recordOther found =>
    cases Option.some.inj own
    cases same _ found
    simp
  | leave found other | stale found other | unguarded found other | guarded found other | window found other
  | check found other | undecoded found other | ran found other | runCrash found other | add found other
  | addNothing found other | chooseKept found other | chooseLatest found other | chooseNull found other
  | chooseMissing found other | send found other | sendOld found other | decref found other =>
    cases Option.some.inj own
    cases same _ found
    rw [pc] at other
    cases other
  | accept | collect | dies | refuse | enqueue | take => cases own

theorem step_known (owned : Owned s) (rule : Step cfg s label s') (i : Nat) (job : Job C) (held : s'.jobs[i]? = some job)
    (nonzero : job.h.cltNonce ≠ 0) (pc : recordedBefore job.pc) : s'.conns job.h.cltNonce ≠ none := by
  have kept : s.jobs[i]? = some job → s'.conns job.h.cltNonce ≠ none := fun before =>
    step_conns_known rule (owned.known i job before nonzero pc)
  rcases step_jobs rule with same | ⟨c,pdu,junk,rest,_,same⟩ | ⟨j,old,new,own,found,same,moves⟩ <;> rw [same] at held
  · exact kept held
  · rcases entry_append held with before | ⟨_,rfl⟩
    · exact kept before
    · simp [recordedBefore] at pc
  · rcases entry_cases held with ⟨rfl,rfl⟩ | ⟨_,other⟩
    · rw [moves.h] at nonzero ⊢
      have earlier : recordedBefore old.pc ∨ old.pc = .record := by
        have follows := moves.pc
        rcases pc with pc | pc | pc | pc <;> rw [pc] at follows
        all_goals
          generalize before : old.pc = earlier at follows
          cases follows
        · exact .inr rfl
        · rename_i zero; exact absurd zero nonzero
        · exact .inl (.inl rfl)
        · exact .inl (.inr (.inl rfl))
        · exact .inl (.inr (.inr (.inl rfl)))
      rcases earlier with earlier | recording
      · exact step_conns_known rule (owned.known i old found nonzero earlier)
      · exact record_known rule own found recording
    · exact kept other

theorem step_owned (owned : Owned s) (valid : ReplyTarget.Invariant s) (rule : Step cfg s label s') : Owned s' :=
  ⟨step_conns owned valid rule,step_right owned rule,step_known owned rule⟩

theorem runs_owned {ok : State C → Label C → Prop} (path : Runs (step cfg) ok initial labels s) : Owned s :=
  path.invariant_reached initial_owned fun _ _ _ _ prior owned _ taken =>
    step_owned owned (ReplyTarget.runs_invariant prior) (step_sound taken)

theorem step_null (rule : Step cfg s label s') (clean : NoNull s) :
    NoNull s' ∨ ∃ j job, label = .choose j ∧ s.jobs[j]? = some job ∧ job.pc = .choose ∧ s.dead job.conn = true ∧
      s.conns job.h.cltNonce = none := by
  cases rule with
  | recordFirst | recordOther =>
    refine .inl fun clt null => ?_
    simp only at null
    split at null
    · cases null
    · exact clean clt null
  | @chooseMissing j job held pc gone missing => exact .inr ⟨j,job,rfl,held,pc,gone,missing⟩
  | _ => exact .inl clean

omit [DecidableEq C] in
theorem missing_anonymous (owned : Owned s) (held : s.jobs[j]? = some job) (pc : job.pc = .choose)
    (missing : s.conns job.h.cltNonce = none) : job.h.cltNonce = 0 := by
  apply Classical.byContradiction
  intro nonzero
  exact owned.known j job held nonzero (.inr (.inr (.inr pc))) missing

theorem step_clean (owned : Owned s) (clean : NoNull s) (rule : Step cfg s label s') (alive : AnonymousAlive s label) :
    NoNull s' := by
  rcases step_null rule clean with clean' | ⟨j,job,rfl,held,pc,gone,missing⟩
  · exact clean'
  · have lives := alive job held (missing_anonymous owned held pc missing)
    rw [gone] at lives
    cases lives

theorem runs_clean (path : Runs (step cfg) AnonymousAlive (initial : State C) labels s) : NoNull s := by
  refine path.invariant_reached (by simp [NoNull,initial]) fun _ _ _ _ prior clean alive taken => ?_
  exact step_clean (runs_owned prior) clean (step_sound taken) alive

theorem replies_iff (owned : Owned s) (clean : NoNull s) (taken : step cfg s label = some s') :
    RepliesWell cfg s label ↔ AnonymousAlive s label := by
  have rule := step_sound taken
  have only : ∀ t, step cfg s label = some t → t = s' := fun t again => Option.some.inj (again.symm.trans taken)
  constructor
  · intro well
    have clean' := (well s' taken).1
    have named : ∀ (job other : Job C) (j : Nat) c, s.jobs[j]? = some job → s.jobs[j]? = some other →
        s.conns job.h.cltNonce = some (some c) → other.h.cltNonce ≠ 0 := fun job other j c held again recorded => by
      cases Option.some.inj (held.symm.trans again)
      exact (owned.conns _ _ recorded).1
    cases rule with
    | chooseKept held _ why =>
      intro other again zero
      rcases why with lives | recorded
      · cases Option.some.inj (held.symm.trans again)
        exact lives
      · exact absurd zero (named _ other _ _ held again recorded)
    | chooseLatest held _ _ recorded => exact fun other again zero => absurd zero (named _ other _ _ held again recorded)
    | chooseNull _ _ _ null => exact absurd null (clean _)
    | @chooseMissing j job => exact absurd (if_pos rfl) (clean' job.h.cltNonce)
    | _ => exact trivial
  · intro alive t again
    cases only t again
    refine ⟨step_clean owned clean rule alive,?_⟩
    cases rule with
    | chooseKept held | chooseLatest held => exact ⟨_,entry_self held,rfl⟩
    | chooseNull held pc gone null => exact absurd null (clean _)
    | chooseMissing held pc gone missing =>
      have lives := alive _ held (missing_anonymous owned held pc missing)
      rw [gone] at lives
      cases lives
    | send | sendOld => exact fun job held => owned.jobs _ job held
    | _ => exact trivial

theorem replies_real_iff (path : Runs (step cfg) free (initial : State C) labels s) :
    Runs (step cfg) (RepliesWell cfg) initial labels s ↔ Runs (step cfg) AnonymousAlive initial labels s :=
  path.steps_iff fun _ _ _ _ prior good _ taken => replies_iff (runs_owned prior) (runs_clean good) taken

def binding : List (Label Nat) :=
  [.accept 1,.gotPdu 1 [0,0,0,28,0,0,0,1,0,0,0,1,0,0,0,0,0,0,0,0,0,0,0,0,0,0,0,0],.take (fun _ => 0),.start 0,
   .run 0 0 (.int 9),.add 0]

theorem live_connection_answered : ∃ labels s, Runs (step ReplyTarget.server) (RepliesWell ReplyTarget.server)
    (initial : State Nat) labels s ∧ .sent 0 1 ∈ s.trace := by
  have before : (exec (step ReplyTarget.server) initial binding).map (fun s => (s.dead 1,s.jobs[0]?.map Job.conn)) =
      some (false,some 1) := by decide +kernel
  have history : (exec (step ReplyTarget.server) initial (binding ++ [.choose 0] ++ [.send 0])).map
      (fun s => decide (.sent 0 1 ∈ s.trace)) = some true := by decide +kernel
  obtain ⟨mid,front,view⟩ := exec_observed before
    (show ∀ label ∈ _, ∀ state, AnonymousAlive state label by simp [binding,AnonymousAlive])
  obtain ⟨s,path,sent⟩ := exec_free_observed history
  obtain ⟨chosen,prior,_,taken⟩ := path.snoc_inv
  have choice : AnonymousAlive mid (.choose 0) := fun job held _ => by
    obtain ⟨lives,conn⟩ := Prod.mk.inj view
    rw [held] at conn
    rw [Option.some.inj conn]
    exact lives
  have good : Runs (step ReplyTarget.server) AnonymousAlive initial (binding ++ [.choose 0] ++ [.send 0]) s :=
    .snoc (front.extend prior choice) trivial taken
  exact ⟨_,s,(replies_real_iff path).mpr good,by simpa using sent⟩

-- The connection dies while the request is executing: operator[] puts NULL into
-- conns_ and dispatch takes it.
theorem null_reply_connection : ¬ ∀ labels s, Runs (step ReplyTarget.server) free (initial : State Nat) labels s →
    Runs (step ReplyTarget.server) (RepliesWell ReplyTarget.server) initial labels s := by
  intro always
  have gone : (exec (step ReplyTarget.server) initial (binding ++ [.dies 1] ++ [.choose 0])).map (fun s => s.conns 0) =
      some (some none) := by decide +kernel
  obtain ⟨s,path,null⟩ := exec_free_observed gone
  obtain ⟨mid,_,well,taken⟩ := (always _ s path).snoc_inv
  exact (well s taken).1 0 null

end YfsLab.ReplyConnection
