import YfsLab.Lib.History
import YfsLab.Rpcs

namespace YfsLab.ReplyTarget
open ReplyWindow (RpcstateT)
open Rpcs History

variable {C : Type}

def newer (clt : UInt32) (earlier : Option C) : Event C → Option C
  | .recorded _ clt' c => if clt' = clt then some c else earlier
  | _ => earlier

def latest (clt : UInt32) (trace : List (Event C)) : Option C := trace.foldl (newer clt) none

@[simp] theorem latest_snoc (clt : UInt32) (trace : List (Event C)) (event : Event C) :
    latest clt (trace ++ [event]) = newer clt (latest clt trace) event := by simp [latest]

-- A copy of the request was dropped because another one is being executed.
def Dropped (trace : List (Event C)) (clt xid : UInt32) : Prop :=
  ∃ j xidRep, .checked j clt xid xidRep .INPROGRESS ∈ trace

def TargetsLatest (past : List (Event C)) : Event C → Prop
  | .chose _ clt xid c => Dropped past clt xid → latest clt past = some c
  | _ => True

-- The reply of every execution with a dropped copy goes to the connection
-- recorded last when dispatch picks the connection.
def Delivers (trace : List (Event C)) : Prop := Always TargetsLatest trace

def CheckedAfterRecord (past : List (Event C)) : Event C → Prop
  | .checked j clt _ _ _ => clt ≠ 0 ∧ ∃ c, .recorded j clt c ∈ past
  | _ => True

def SentAsChosen (past : List (Event C)) : Event C → Prop
  | .sent j c => ∀ clt xid c', .chose j clt xid c' ∈ past → c = c'
  | _ => True

-- At its last critical section the server knows that the connection the
-- request came on is dead, or that connection is still the recorded one.
def Noticed (s : State C) : Label C → Prop
  | .choose j => ∀ job, s.jobs[j]? = some job → Dropped s.trace job.h.cltNonce job.h.xid →
      s.dead job.conn = true ∨ s.conns job.h.cltNonce = some (some job.conn)
  | _ => True

def sending (pc : Pc) : Prop := pc = .send ∨ pc = .sendOld ∨ pc = .decref ∨ pc = .finished

structure Invariant (s : State C) : Prop where
  nonzero : ∀ (i : Nat) job, s.jobs[i]? = some job →
    (job.pc = .window ∨ job.pc = .record ∨ job.pc = .check) → job.h.cltNonce ≠ 0
  recorded : ∀ (i : Nat) job, s.jobs[i]? = some job → job.pc = .check →
    ∃ c, .recorded i job.h.cltNonce c ∈ s.trace
  known : s.crashed = false → ∀ clt, clt ≠ 0 → s.conns clt = (latest clt s.trace).map some
  ordered : Always CheckedAfterRecord s.trace
  chosen : ∀ i clt xid c, .chose i clt xid c ∈ s.trace →
    ∃ job, s.jobs[i]? = some job ∧ job.conn = c ∧ sending job.pc
  sent : Always SentAsChosen s.trace

theorem initial_invariant : Invariant (initial : State C) :=
  ⟨by simp [initial],by simp [initial],by simp [initial,latest],always_nil,by simp [initial],always_nil⟩

variable [DecidableEq C] {cfg : Config} {s s' : State C} {label : Label C}

theorem step_nonzero (valid : Invariant s) (step : Step cfg s label s') (i : Nat) (job : Job C)
    (held : s'.jobs[i]? = some job) (pc : job.pc = .window ∨ job.pc = .record ∨ job.pc = .check) :
    job.h.cltNonce ≠ 0 := by
  rcases step_jobs step with same | ⟨c,pdu,junk,rest,_,same⟩ | ⟨j,old,new,_,found,same,moves⟩
  · exact valid.nonzero i job (same ▸ held) pc
  · rw [same] at held
    rcases Machine.entry_append held with old | ⟨_,rfl⟩
    · exact valid.nonzero i job old pc
    · simp at pc
  · rw [same] at held
    rcases Machine.entry_cases held with ⟨rfl,rfl⟩ | ⟨_,old⟩
    · rw [moves.h]
      have follows := moves.pc
      rcases pc with pc | pc | pc <;> rw [pc] at follows
      · generalize before : old.pc = earlier at follows
        cases follows with
        | guarded nonzero => exact nonzero
      · generalize before : old.pc = earlier at follows
        cases follows
        exact valid.nonzero i old found (.inl before)
      · generalize before : old.pc = earlier at follows
        cases follows
        exact valid.nonzero i old found (.inr (.inl before))
    · exact valid.nonzero i job old pc

theorem step_recorded (valid : Invariant s) (step : Step cfg s label s') (i : Nat) (job : Job C)
    (held : s'.jobs[i]? = some job) (pc : job.pc = .check) : ∃ c, .recorded i job.h.cltNonce c ∈ s'.trace := by
  have kept : s.jobs[i]? = some job → ∃ c, .recorded i job.h.cltNonce c ∈ s'.trace := by
    intro old
    obtain ⟨c,member⟩ := valid.recorded i job old pc
    exact ⟨c,step_remembers_trace step member⟩
  rcases step_jobs step with same | ⟨c,pdu,junk,rest,_,same⟩ | ⟨j,old,new,own,found,same,moves⟩
  · exact kept (same ▸ held)
  · rw [same] at held
    rcases Machine.entry_append held with old | ⟨_,rfl⟩
    · exact kept old
    · cases pc
  · rw [same] at held
    rcases Machine.entry_cases held with ⟨rfl,rfl⟩ | ⟨_,other⟩
    · have follows := moves.pc
      rw [pc] at follows
      generalize before : old.pc = earlier at follows
      cases follows
      rw [moves.h]
      exact ⟨old.conn,record_logs step own found before⟩
    · exact kept other

theorem step_known (valid : Invariant s) (alive : s.crashed = false) (step : Step cfg s label s') :
    s'.crashed = false → ∀ clt, clt ≠ 0 → s'.conns clt = (latest clt s'.trace).map some := by
  have before := valid.known alive
  intro running clt nonzero
  cases step with
  | recordCrash | runCrash | chooseNull | chooseMissing => cases running
  | @recordKept j job held pc kept =>
    rw [log_trace,setJob_trace,latest_snoc,log_conns,setJob_conns,newer]
    by_cases same : job.h.cltNonce = clt
    · rw [if_pos same,← same]; exact kept
    · rw [if_neg same]; exact before clt nonzero
  | @recordFirst j job | @recordOther j job =>
    simp only [log_trace,setJob_trace,latest_snoc,newer]
    by_cases same : clt = job.h.cltNonce
    · simp [same]
    · rw [if_neg same,if_neg (fun equal => same equal.symm)]
      exact before clt nonzero
  | accept | collect | dies | refuse | enqueue | take | leave | stale | unguarded | guarded | window
  | undecoded | add | addNothing | decref => exact before clt nonzero
  | check | ran | chooseKept | chooseLatest | send | sendOld =>
    simp only [log_trace,setJob_trace,latest_snoc,newer]
    exact before clt nonzero

theorem step_ordered (valid : Invariant s) (step : Step cfg s label s') : Always CheckedAfterRecord s'.trace := by
  cases step with
  | check held pc =>
    exact always_snoc.mpr ⟨valid.ordered,valid.nonzero _ _ held (.inr (.inr pc)),valid.recorded _ _ held pc⟩
  | accept | collect | dies | refuse | enqueue | take | leave | stale | unguarded | guarded | window
  | undecoded | add | addNothing | decref | chooseNull | chooseMissing => exact valid.ordered
  | recordKept | recordFirst | recordOther | recordCrash | ran | runCrash | chooseKept | chooseLatest | send
  | sendOld => exact always_snoc.mpr ⟨valid.ordered,trivial⟩

theorem step_keeps_chosen (step : Step cfg s label s') (i : Nat) (c : C)
    (before : ∃ job, s.jobs[i]? = some job ∧ job.conn = c ∧ sending job.pc) :
    ∃ job, s'.jobs[i]? = some job ∧ job.conn = c ∧ sending job.pc := by
  obtain ⟨job,held,target,late⟩ := before
  rcases step_jobs step with same | ⟨c,pdu,junk,rest,_,same⟩ | ⟨j,old,new,own,found,same,moves⟩
  · exact ⟨job,same ▸ held,target,late⟩
  · exact ⟨job,by rw [same]; exact Machine.entry_kept held,target,late⟩
  · by_cases at_ : i = j
    · subst at_
      cases Option.some.inj (held.symm.trans found)
      have follows := moves.pc
      refine ⟨new,by rw [same]; exact Machine.entry_self found,?_,?_⟩
      · rcases moves.conn with same | ⟨choosing,_⟩
        · exact same.trans target
        · rcases late with pc | pc | pc | pc <;> rw [choosing] at pc <;> cases pc
      · rcases late with pc | pc | pc | pc <;> rw [pc] at follows
        · generalize new.pc = later at follows; cases follows; exact .inr (.inr (.inl rfl))
        · generalize new.pc = later at follows; cases follows; exact .inr (.inr (.inr rfl))
        · generalize new.pc = later at follows; cases follows; exact .inr (.inr (.inr rfl))
        · generalize new.pc = later at follows; cases follows
    · exact ⟨job,by rw [same,Machine.entry_other at_]; exact held,target,late⟩

theorem step_chosen (valid : Invariant s) (step : Step cfg s label s') (i : Nat) (clt xid : UInt32) (c : C)
    (member : .chose i clt xid c ∈ s'.trace) :
    ∃ job, s'.jobs[i]? = some job ∧ job.conn = c ∧ sending job.pc := by
  by_cases earlier : .chose i clt xid c ∈ s.trace
  · exact step_keeps_chosen step i c (valid.chosen i clt xid c earlier)
  · cases step with
    | accept | collect | dies | refuse | enqueue | take | leave | stale | unguarded | guarded | window
    | undecoded | add | addNothing | decref | chooseNull | chooseMissing => exact absurd member earlier
    | recordKept | recordFirst | recordOther | recordCrash | check | ran | runCrash | send | sendOld =>
      rcases List.mem_append.mp member with old | new
      · exact absurd old earlier
      · cases List.mem_singleton.mp new
    | chooseKept held | chooseLatest held =>
      rcases List.mem_append.mp member with old | new
      · exact absurd old earlier
      · cases List.mem_singleton.mp new
        exact ⟨_,Machine.entry_self held,rfl,.inl rfl⟩

theorem step_sent (valid : Invariant s) (step : Step cfg s label s') : Always SentAsChosen s'.trace := by
  cases step with
  | send held | sendOld held =>
    refine always_snoc.mpr ⟨valid.sent,?_⟩
    intro clt xid c chose
    obtain ⟨job,found,target,_⟩ := valid.chosen _ clt xid c chose
    cases Option.some.inj (held.symm.trans found)
    exact target
  | accept | collect | dies | refuse | enqueue | take | leave | stale | unguarded | guarded | window
  | undecoded | add | addNothing | decref | chooseNull | chooseMissing => exact valid.sent
  | recordKept | recordFirst | recordOther | recordCrash | check | ran | runCrash | chooseKept
  | chooseLatest => exact always_snoc.mpr ⟨valid.sent,trivial⟩

theorem step_invariant (valid : Invariant s) (taken : step cfg s label = some s') : Invariant s' :=
  have rule := step_sound taken
  ⟨step_nonzero valid rule,step_recorded valid rule,step_known valid (step_alive taken) rule,
    step_ordered valid rule,step_chosen valid rule,step_sent valid rule⟩

theorem runs_invariant {ok : State C → Label C → Prop} (path : Machine.Runs (step cfg) ok initial labels s) :
    Invariant s :=
  path.invariant initial_invariant (fun _ _ _ valid _ taken => step_invariant valid taken)

theorem step_delivers (valid : Invariant s) (taken : step cfg s label = some s') (before : Delivers s.trace) :
    Delivers s'.trace ↔ Noticed s label := by
  have known := valid.known (step_alive taken)
  have dropped : ∀ clt xid, Dropped s.trace clt xid → clt ≠ 0 := by
    rintro clt xid ⟨i,xidRep,member⟩
    obtain ⟨past,_,ordered⟩ := valid.ordered.mem member
    exact ordered.1
  cases step_sound taken with
  | accept | collect | dies | refuse | enqueue | take | leave | stale | unguarded | guarded | window
  | undecoded | add | addNothing | decref => exact iff_of_true before trivial
  | recordKept | recordFirst | recordOther | recordCrash | check | ran | runCrash | send | sendOld =>
    exact iff_of_true (always_snoc.mpr ⟨before,trivial⟩) trivial
  | @chooseKept j job held pc why =>
    refine ⟨?_,?_⟩
    · intro after other found copy
      cases Option.some.inj (held.symm.trans found)
      have target := (always_snoc.mp after).2 copy
      rw [setJob_trace] at target
      exact .inr (by rw [known _ (dropped _ _ copy),target]; rfl)
    · intro noticed
      refine always_snoc.mpr ⟨before,fun copy => ?_⟩
      have nonzero := dropped _ _ copy
      have target : s.conns job.h.cltNonce = some (some job.conn) := by
        rcases noticed job held copy with gone | recorded
        · rcases why with alive | recorded
          · rw [alive] at gone; cases gone
          · exact recorded
        · exact recorded
      rw [known _ nonzero] at target
      rw [setJob_trace]
      simpa using target
  | @chooseLatest j job latest held pc gone recorded =>
    refine iff_of_true (always_snoc.mpr ⟨before,fun copy => ?_⟩) ?_
    · rw [known _ (dropped _ _ copy)] at recorded
      rw [setJob_trace]
      simpa using recorded
    · intro other found _
      cases Option.some.inj (held.symm.trans found)
      exact .inl gone
  | chooseNull held pc gone | chooseMissing held pc gone =>
    refine iff_of_true before (fun other found _ => ?_)
    cases Option.some.inj (held.symm.trans found)
    exact .inl gone

theorem step_delivers_before (rule : Step cfg s label s') (after : Delivers s'.trace) : Delivers s.trace := by
  rcases step_trace rule with same | ⟨event,same⟩
  · exact same ▸ after
  · rw [same] at after
    exact (always_snoc.mp after).1

theorem replies_follow_reconnection (path : Machine.Runs (step cfg) Machine.free (initial : State C) labels s) :
    (Delivers s.trace ↔ Machine.Runs (step cfg) Noticed initial labels s) ∧
    Always CheckedAfterRecord s.trace ∧ Always SentAsChosen s.trace := by
  refine ⟨?_,(runs_invariant path).ordered,(runs_invariant path).sent⟩
  apply path.holds_iff (fun s => Delivers s.trace) always_nil .nil
  intro earlier before label after _ prior _ taken _
  have valid := runs_invariant prior
  constructor
  · intro delivers
    have held := step_delivers_before (step_sound taken) delivers
    exact ⟨held,(step_delivers valid taken held).mp delivers⟩
  · rintro ⟨held,noticed⟩
    exact (step_delivers valid taken held).mpr noticed

-- A bind request of client 7 whose first copy comes on connection 1 and is
-- executing when the second copy is dropped on connection 2.
def server : Config := ⟨9,fun _ => none⟩

def reconnecting : List (Label Nat) :=
  let pdu : List UInt8 := [0,0,0,28,0,0,0,1,0,0,0,1,0,0,0,7,0,0,0,0,0,0,0,0,0,0,0,0]
  [.accept 1,.gotPdu 1 pdu,.take (fun _ => 0),.start 0,.window 0,.record 0,.check 0,
   .accept 2,.gotPdu 2 pdu,.take (fun _ => 0),.start 1,.window 1,.record 1,.check 1,.run 0 0 (.int 9),.add 0]

theorem unnoticed_reply_lost :
    ¬ ∀ labels s, Machine.Runs (step server) Machine.free (initial : State Nat) labels s → Delivers s.trace := by
  intro always
  have history : (Machine.exec (step server) initial (reconnecting ++ [.choose 0])).map State.trace =
      some ([.recorded 0 7 1,.checked 0 7 1 0 .NEW,.recorded 1 7 2,.checked 1 7 1 0 .INPROGRESS,
        .ran 0 7 1 1 [.int 0] 0 (.int 9)] ++ [.chose 0 7 1 1]) := by decide +kernel
  obtain ⟨s,path,trace⟩ := Machine.exec_free_observed history
  have target := always _ s path _ _ [] trace ⟨1,0,by decide⟩
  exact absurd target (by decide)

theorem noticed_reply_delivered :
    ∃ labels s, Machine.Runs (step server) Machine.free (initial : State Nat) labels s ∧
      .chose 0 7 1 2 ∈ s.trace ∧ Delivers s.trace := by
  have before : (Machine.exec (step server) initial (reconnecting ++ [.dies 1])).map
      (fun s => (s.dead 1,s.jobs[0]?.map Job.conn)) = some (true,some 1) := by decide +kernel
  have history : (Machine.exec (step server) initial (reconnecting ++ [.dies 1] ++ [.choose 0])).map
      (fun s => decide (.chose 0 7 1 2 ∈ s.trace)) = some true := by decide +kernel
  obtain ⟨s,path,view⟩ := Machine.exec_observed before (show ∀ label ∈ _, ∀ state, Noticed state label by simp [reconnecting,Noticed])
  obtain ⟨s',path',chose⟩ := Machine.exec_free_observed history
  refine ⟨_,s',path',by simpa using chose,(replies_follow_reconnection path').1.mpr ?_⟩
  apply path.extend path'
  intro job held _
  obtain ⟨gone,conn⟩ := Prod.mk.inj view
  rw [held] at conn
  exact .inl (by rw [Option.some.inj conn]; exact gone)

end YfsLab.ReplyTarget
