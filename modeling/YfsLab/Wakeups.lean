import YfsLab.Send

namespace YfsLab.Wakeups
open Send

variable {s s' : State} {k : Nat} {sender : Sender} {label : Label} {result : WriteResult}

-- Where the senders stand; nothing else of them matters here.
def pcs (s : State) : List Pc := s.senders.map Sender.pc

def Parked (s : State) : Prop := .waitComplete false ∈ pcs s

def Asleep (s : State) : Prop := s.dead = true ∧ Parked s

def ClosesQuietly (s : State) : Label → Prop
  | .closeconn => ¬ Parked s
  | _ => True

instance (s : State) : Decidable (Parked s) := inferInstanceAs (Decidable (_ ∈ _))

instance (s : State) (label : Label) : Decidable (ClosesQuietly s label) :=
  match label with
  | .closeconn => inferInstanceAs (Decidable (¬ _))
  | .send _ _ | .wakeTurn _ _ | .wakeComplete _ | .removed _ | .writeCb _ | .readFails => .isTrue trivial

theorem alive_awake (alive : s.dead = false) : ¬ Asleep s := by
  intro asleep
  rw [asleep.1] at alive
  cases alive

theorem pcs_setSender (s : State) (k : Nat) (sender : Sender) : pcs (setSender s k sender) = (pcs s).set k sender.pc := by
  simp [pcs,setSender,List.map_set]

theorem parked_setSender (elsewhere : sender.pc ≠ .waitComplete false) (parked : Parked (setSender s k sender)) :
    Parked s := by
  rw [Parked,pcs_setSender] at parked
  rcases List.mem_or_eq_of_mem_set parked with old | new
  · exact old
  · exact absurd new.symm elsewhere

theorem not_parked_signal (s : State) : ¬ Parked (signalComplete s) := by
  intro parked
  obtain ⟨called,member,pc⟩ := List.mem_map.mp parked
  obtain ⟨sender,_,rfl⟩ := List.mem_map.mp member
  unfold Sender.calledComplete at pc
  split at pc
  · cases pc
  · rename_i other; exact other false pc

-- The broadcast on send_wait_ is not for those who wait on send_complete_.
theorem parked_finish (parked : Parked (finish s k sender)) : Parked s := by
  unfold finish at parked
  dsimp only at parked
  split at parked
  · obtain ⟨called,member,pc⟩ := List.mem_map.mp parked
    obtain ⟨old,there,rfl⟩ := List.mem_map.mp member
    have same : old.pc = .waitComplete false := by
      unfold Sender.calledTurn at pc
      split at pc
      · cases pc
      · exact pc
    have before : Parked (setSender {s with wpdu:=.null} k {sender with pc:=.returned _}) :=
      List.mem_map.mpr ⟨old,there,same⟩
    exact parked_setSender (s:={s with wpdu:=.null}) (by simp) before
  · exact parked_setSender (s:={s with wpdu:=.null}) (by simp) parked

theorem writepdu_keeps (written : writepdu s result = some (succ,s')) : s'.dead = s.dead ∧ pcs s' = pcs s := by
  unfold writepdu at written
  split at written
  · cases Option.some.inj written; exact ⟨rfl,rfl⟩
  · split at written
    · cases Option.some.inj written; exact ⟨rfl,rfl⟩
    · split at written
      · cases written
      · rename_i k own
        split at written
        · cases written
        · rename_i sender held
          have same : ∀ mem, pcs (setSender s k {sender with mem:=mem}) = pcs s := by
            intro mem
            have entry : (pcs s)[k]? = some sender.pc := by simp [pcs,held]
            obtain ⟨bound,here⟩ := List.getElem?_eq_some_iff.mp entry
            rw [pcs_setSender]
            show (pcs s).set k sender.pc = pcs s
            rw [← here,List.set_getElem_self]
          cases result with
          | wrote n =>
            obtain ⟨_,written⟩ := Option.ite_none_right_eq_some.mp written
            cases Option.some.inj written; exact ⟨rfl,same _⟩
          | again => cases Option.some.inj written; exact ⟨rfl,same _⟩
          | error => cases Option.some.inj written; exact ⟨rfl,same _⟩

-- The sender that gets its turn finds nobody on send_complete_, so its failure
-- leaves none behind.
theorem enter_awake (nobody : ¬ Parked s) (entered : enter s k sender result = some s') : ¬ Asleep s' := by
  unfold enter at entered
  dsimp only at entered
  split at entered
  · cases Option.some.inj entered
    intro asleep
    exact nobody (parked_setSender (s:={s with waiters:=s.waiters-1}) (by simp) asleep.2)
  · rename_i alive
    split at entered
    · cases entered
    · rename_i succ mid wrote
      obtain ⟨dead,same⟩ := writepdu_keeps wrote
      have alive : mid.dead = false := by rw [dead]; simpa [setSender] using alive
      split at entered
      · cases entered
      · rename_i writer held
        split at entered
        · cases Option.some.inj entered
          intro asleep
          have there : pcs mid = (pcs s).set k (.waitComplete false) := by rw [same,pcs_setSender]; rfl
          have failing : .waitComplete false ∈ pcs (setSender mid k {writer with pc:=.failing}) := asleep.2
          rw [pcs_setSender,there,List.set_set] at failing
          rcases List.mem_or_eq_of_mem_set failing with old | new
          · exact nobody old
          · cases new
        · split at entered
          · cases Option.some.inj entered
            exact alive_awake ((finish_keeps _ _ _).1.trans alive)
          · cases Option.some.inj entered
            exact alive_awake alive

theorem nobody_parked (written : Written s full part) (none : s.wpdu.buf = none) : ¬ Parked s := by
  intro parked
  obtain ⟨sender,member,pc⟩ := List.mem_map.mp parked
  obtain ⟨k,held⟩ := List.mem_iff_getElem?.mp member
  have own := (written.owner k sender held).mp (by rw [pc]; rfl)
  rw [none] at own
  cases own

theorem takeTurn_awake (written : Written s full part) (awake : ¬ Asleep s)
    (taken : takeTurn s k sender result = some s') : ¬ Asleep s' := by
  unfold takeTurn at taken
  split at taken
  · rename_i alive
    cases Option.some.inj taken
    exact alive_awake alive.1
  · rename_i turn
    apply enter_awake ?_ taken
    by_cases dead : s.dead = true
    · exact fun parked => awake ⟨dead,parked⟩
    · apply nobody_parked written
      by_contra busy
      exact turn ⟨by simpa using dead,busy⟩

theorem writeCb_awake (awake : ¬ Asleep s) (taken : writeCb s result = some s') : ¬ Asleep s' := by
  unfold writeCb at taken
  split at taken
  · cases Option.some.inj taken; exact awake
  · rename_i alive
    split at taken
    · cases Option.some.inj taken; exact awake
    · split at taken
      · cases taken
      · rename_i succ mid wrote
        split at taken
        · cases Option.some.inj taken
          exact fun asleep => not_parked_signal _ asleep.2
        · split at taken
          · cases Option.some.inj taken
            exact alive_awake ((writepdu_keeps wrote).1.trans (by simpa using alive))
          · cases Option.some.inj taken
            exact fun asleep => not_parked_signal _ asleep.2

theorem finish_awake (awake : ¬ Asleep s) : ¬ Asleep (finish s k sender) := by
  intro asleep
  obtain ⟨gone,parked⟩ := asleep
  rw [(finish_keeps _ _ _).1] at gone
  exact awake ⟨gone,parked_finish parked⟩

theorem step_awake (written : Written s full part) (awake : ¬ Asleep s) (taken : step s label = some s') :
    ¬ Asleep s' ↔ ClosesQuietly s label := by
  cases step_sound taken with
  | send entered =>
    refine iff_of_true (takeTurn_awake (written.append _ (s.waiters+1)) ?_ entered) trivial
    intro asleep
    refine awake ⟨asleep.1,?_⟩
    simpa [Parked,pcs] using asleep.2
  | wakeTurn _ _ entered => exact iff_of_true (takeTurn_awake written awake entered) trivial
  | parksAgain _ _ alive => exact iff_of_true (alive_awake alive) trivial
  | completes => exact iff_of_true (finish_awake awake) trivial
  | removed => exact iff_of_true (finish_awake awake) trivial
  | writeCb called => exact iff_of_true (writeCb_awake awake called) trivial
  | readLate => exact iff_of_true awake trivial
  | readFails => exact iff_of_true (fun asleep => not_parked_signal _ asleep.2) trivial
  | closeconn =>
    constructor
    · exact fun awake parked => awake ⟨rfl,parked⟩
    · exact fun quiet asleep => quiet asleep.2

theorem dead_connection_wakes_iff (path : Machine.Runs step Machine.free initial labels s) :
    (∀ earlier later mid, labels = earlier ++ later → Machine.Runs step Machine.free initial earlier mid → ¬ Asleep mid) ↔
      Machine.Runs step ClosesQuietly initial labels s := by
  apply path.throughout_iff (fun s => ¬ Asleep s)
  case start => simp [Asleep,initial]
  case exactly =>
    intro earlier before label after reached _ _ taken awake
    obtain ⟨full,part,written⟩ := runs_written reached
    exact step_awake written awake taken

-- A PDU of which the rest goes out before closeconn.
theorem signalled_sender_wakes : ∃ s, Machine.Runs step Machine.free initial
    [.send hello (.wrote 5),.writeCb (.wrote 19),.closeconn] s ∧ s.dead = true ∧ pcs s = [.waitComplete true] ∧
      ¬ Asleep s := by
  have ran : (Machine.exec (Machine.guarded step ClosesQuietly) initial
      [.send hello (.wrote 5),.writeCb (.wrote 19),.closeconn]).map (fun s => (s.dead,pcs s)) =
      some (true,[.waitComplete true]) := by decide +kernel
  obtain ⟨s,path,seen⟩ := Machine.guarded_observed ran
  have anyway := path.unrestricted
  refine ⟨s,anyway,congrArg (·.1) seen,congrArg (·.2) seen,?_⟩
  exact (dead_connection_wakes_iff anyway).mpr path _ [] s (by simp) anyway

-- One of which it does not: the connection is dead, its callbacks are being
-- removed, and the sender waits on.
theorem closed_sender_sleeps : ∃ s, Machine.Runs step Machine.free initial [.send hello (.wrote 5),.closeconn] s ∧
    Asleep s := by
  have ran : (Machine.exec step initial [.send hello (.wrote 5),.closeconn]).map (fun s => (s.dead,pcs s)) =
      some (true,[.waitComplete false]) := by decide +kernel
  obtain ⟨s,path,seen⟩ := Machine.exec_free_observed ran
  obtain ⟨dead,parked⟩ := Prod.mk.inj seen
  exact ⟨s,path,dead,by rw [Parked,parked]; exact List.mem_singleton_self _⟩

end YfsLab.Wakeups
