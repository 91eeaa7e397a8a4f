import YfsLab.Creates

namespace YfsLab.Dangling
open YfsClient ExtentProtocol Creates

def NoDangling (s : State) : Prop :=
  ∀ fl, s.server.get 1 = some (serialize fl) → ∀ entry ∈ fl, s.server.Present entry.1

-- One client: it calls createfile when its last call has returned.
def Idle (s : State) : Prop := ∀ call ∈ s.calls, ∃ status id, call.phase = .returned status id

instance (phase : Phase) : Decidable (∃ status id, phase = .returned status id) :=
  match phase with
  | .returned status id => isTrue ⟨status,id,rfl⟩
  | .looking _ | .reading _ | .drawing _ | .writing _ _ | .filing _ => isFalse (by simp)

instance (s : State) : Decidable (Idle s) := inferInstanceAs (Decidable (∀ call ∈ s.calls, _))

def Alone (s : State) : Label → Prop
  | .create _ _ _ => Idle s
  | _ => True

instance (s : State) : (label : Label) → Decidable (Alone s label)
  | .create _ _ _ => inferInstanceAs (Decidable (Idle s))
  | .rpc _ _ | .draw _ _ => inferInstanceAs (Decidable True)

def Prepared (s : State) : Label → Prop
  | .rpc k delivery => ∀ call fl id, s.calls[k]? = some call → call.phase = .writing fl id →
      delivery ≠ .requestLost → s.server.Present id
  | _ => True

-- No put of the directory fails after it took effect and no put of a file
-- fails without effect, unless the inum already has an extent.
def Completed (s : State) : Label → Prop
  | .rpc k delivery => ∀ call id, s.calls[k]? = some call →
      ((∃ fl, call.phase = .writing fl id) ∧ delivery = .replyLost) ∨
        (call.phase = .filing id ∧ delivery = .requestLost) → s.server.Present id
  | _ => True

variable {junk : Nat → UInt8} {s s' : State} {label : Label} {dir dir' : Filelist}

theorem noDangling_iff (rooted : Rooted s dir) : NoDangling s ↔ ∀ entry ∈ dir, s.server.Present entry.1 := by
  constructor
  · exact fun none => none dir rooted.stored
  · intro present fl stored
    rwa [rooted.unique stored]

-- The state of one client: all calls but the last have returned, and the last
-- one knows the directory as it is.
structure Single (s : State) (dir : Filelist) : Prop extends Rooted s dir where
  last : ∀ (k : Nat) (call : Call), s.calls[k]? = some call →
    (∃ status id, call.phase = .returned status id) ∨ k + 1 = s.calls.length
  current : ∀ (k : Nat) (call : Call) (fl : Filelist), s.calls[k]? = some call → Pending call fl → fl = dir
  filed : ∀ (k : Nat) (call : Call) (id : UInt64), s.calls[k]? = some call → call.phase = .filing id →
    (id,call.name) ∈ dir

section Moves
variable {k : Nat} {call : Call} {phase : Phase}

theorem Single.rest (single : Single s dir) (held : s.calls[k]? = some call)
    (running : ∀ status id, call.phase ≠ .returned status id) (there : s.calls[i]? = some other) (different : i ≠ k) :
    ∃ status id, other.phase = .returned status id := by
  rcases single.last k call held with ⟨status,id,returned⟩ | mine
  · exact absurd returned (running status id)
  · rcases single.last i other there with returned | its
    · exact returned
    · omega

theorem Single.goes (single : Single s dir) (moved : s'.calls = s.calls.set k {call with phase:=phase})
    (held : s.calls[k]? = some call) (running : ∀ status id, call.phase ≠ .returned status id)
    (rooted : Rooted s' dir') (current : ∀ fl, Pending {call with phase:=phase} fl → fl = dir')
    (filed : ∀ id, phase = .filing id → (id,call.name) ∈ dir') : Single s' dir' := by
  have entry : ∀ (i : Nat) other, s'.calls[i]? = some other →
      (i = k ∧ other = {call with phase:=phase}) ∨ (i ≠ k ∧ ∃ status id, other.phase = .returned status id) := by
    intro i other there
    rw [moved] at there
    rcases Machine.entry_cases there with ⟨rfl,rfl⟩ | ⟨different,old⟩
    · exact .inl ⟨rfl,rfl⟩
    · exact .inr ⟨different,single.rest held running old different⟩
  refine ⟨rooted,fun i other there => ?_,fun i other fl there waiting => ?_,fun i other id there filing => ?_⟩
  · rcases entry i other there with ⟨rfl,_⟩ | ⟨_,returned⟩
    · rcases single.last i call held with ⟨status,id,returned⟩ | mine
      · exact absurd returned (running status id)
      · exact .inr (by rw [moved,List.length_set]; exact mine)
    · exact .inl returned
  · rcases entry i other there with ⟨_,rfl⟩ | ⟨_,status,id,returned⟩
    · exact current fl waiting
    · simp [Pending,returned] at waiting
  · rcases entry i other there with ⟨_,rfl⟩ | ⟨_,status,id',returned⟩
    · exact filed id filing
    · cases returned.symm.trans filing

end Moves

theorem Single.step (single : Single s dir) (alone : Alone s label) (turn : Turn s dir label s' dir') :
    Single s' dir' := by
  have rooted := single.toRooted.step turn
  cases turn with
  | create =>
    refine ⟨rooted,fun i other there => ?_,fun i other fl there waiting => ?_,fun i other id there filing => ?_⟩
    · rcases Machine.entry_append there with old | ⟨rfl,rfl⟩
      · exact .inl (alone other (List.mem_of_getElem? old))
      · exact .inr (by simp)
    · rcases Machine.entry_append there with old | ⟨rfl,rfl⟩
      · exact single.current i other fl old waiting
      · simp [Pending] at waiting
    · rcases Machine.entry_append there with old | ⟨rfl,rfl⟩
      · exact single.filed i other id old filing
      · cases filing
  | refused held at_ =>
    refine single.goes rfl held (fun status id returned => ?_) rooted (by simp [Pending]) (by simp)
    rcases at_ with at_ | at_ <;> cases at_.symm.trans returned
  | missed held at_ => exact single.goes rfl held (by simp [at_]) rooted (by simp [Pending]) (by simp)
  | found held at_ => exact single.goes rfl held (by simp [at_]) rooted (by simp [Pending]) (by simp)
  | read held at_ => exact single.goes rfl held (by simp [at_]) rooted (by simp [Pending,eq_comm]) (by simp)
  | draw held at_ =>
    refine single.goes rfl held (by simp [at_]) rooted (fun fl waiting => ?_) (by simp)
    exact single.current _ _ fl held (.inl (by simpa [Pending,at_] using waiting))
  | write held at_ =>
    refine single.goes rfl held (by simp [at_]) rooted (fun fl waiting => ?_) (fun id filing => ?_)
    · rcases waiting with drawing | ⟨_,writing⟩
      · simp only at drawing
        split at drawing <;> cases drawing
      · simp only at writing
        split at writing <;> cases writing
    · split at filing
      · cases filing
        exact List.mem_append_right _ List.mem_cons_self
      · cases filing
  | unwritten held at_ => exact single.goes rfl held (by simp [at_]) rooted (by simp [Pending]) (by simp)
  | file held at_ => exact single.goes rfl held (by simp [at_]) rooted (by simp [Pending]) (by simp)
  | unfiled held at_ => exact single.goes rfl held (by simp [at_]) rooted (by simp [Pending]) (by simp)

theorem runs_single (path : Machine.Runs (Creates.step junk) Alone initial labels s) : ∃ dir, Single s dir := by
  induction path with
  | nil =>
    refine ⟨[],initial_rooted,fun k call held => ?_,fun k call fl held => ?_,fun k call id held => ?_⟩
    all_goals simp [initial] at held
  | snoc _ alone taken ih =>
    obtain ⟨dir,single⟩ := ih
    obtain ⟨dir',turn⟩ := single.toRooted.turn taken
    exact ⟨dir',single.step alone turn⟩

theorem present_put {server : ExtentServer} (present : server.Present key) (eid : UInt64) (buf : List UInt8) :
    (server.put eid buf).Present key := (server.put_present eid key buf).mpr (.inr present)

theorem present_root {server : ExtentServer} (isFile : isfile key = true) (buf : List UInt8) :
    (server.put 1 buf).Present key ↔ server.Present key := by
  rw [ExtentServer.put_present]
  apply or_iff_right
  rintro rfl
  exact absurd isFile (by decide)

theorem prepared_unwritten {k : Nat} {call : Call} (held : s.calls[k]? = some call)
    (elsewhere : ∀ fl id, call.phase ≠ .writing fl id) : Prepared s (.rpc k delivery) := by
  intro other fl id there writing
  cases Option.some.inj (held.symm.trans there)
  exact absurd writing (elsewhere fl id)

theorem noDangling_step (single : Single s dir) (turn : Turn s dir label s' dir') (none : NoDangling s) :
    NoDangling s' ↔ Prepared s label := by
  have after := noDangling_iff (single.toRooted.step turn)
  rw [noDangling_iff single.toRooted] at none
  cases turn with
  | create => exact iff_of_true (after.mpr none) trivial
  | refused held at_ =>
    refine iff_of_true (after.mpr none) (prepared_unwritten held fun fl id writing => ?_)
    rcases at_ with at_ | at_ <;> cases at_.symm.trans writing
  | missed held at_ => exact iff_of_true (after.mpr none) (prepared_unwritten held (by simp [at_]))
  | found held at_ => exact iff_of_true (after.mpr none) (prepared_unwritten held (by simp [at_]))
  | read held at_ => exact iff_of_true (after.mpr none) (prepared_unwritten held (by simp [at_]))
  | draw held at_ => exact iff_of_true (after.mpr none) trivial
  | write held at_ root isFile effective fits =>
    cases single.current _ _ _ held (.inr ⟨_,at_⟩)
    rw [after]
    constructor
    · intro present other fl id there writing _
      cases Option.some.inj (held.symm.trans there)
      cases at_.symm.trans writing
      exact (present_root isFile _).mp (present _ (List.mem_append_right _ List.mem_cons_self))
    · intro prepared entry member
      rcases List.mem_append.mp member with old | new
      · exact present_put (none entry old) _ _
      · rw [List.mem_singleton.mp new]
        exact (present_root isFile _).mpr (prepared _ _ _ held at_ effective)
  | unwritten held at_ =>
    refine iff_of_true (after.mpr none) fun other fl id there writing effective => absurd rfl effective
  | file held at_ =>
    exact iff_of_true (after.mpr fun entry member => present_put (none entry member) _ _)
      (prepared_unwritten held (by simp [at_]))
  | unfiled held at_ => exact iff_of_true (after.mpr none) (prepared_unwritten held (by simp [at_]))

-- Between the calls: an entry may miss its extent while the call that makes
-- the extent is at its second put.
def Owed (s : State) (dir : Filelist) : Prop :=
  ∀ entry ∈ dir, s.server.Present entry.1 ∨ ∃ call ∈ s.calls, call.phase = .filing entry.1

def Quiet (s : State) : Prop := Idle s → NoDangling s

theorem Owed.quiet (rooted : Rooted s dir) (owed : Owed s dir) : Quiet s := by
  intro idle
  rw [noDangling_iff rooted]
  intro entry member
  rcases owed entry member with present | ⟨call,inside,filing⟩
  · exact present
  · obtain ⟨status,id,returned⟩ := idle call inside
    cases returned.symm.trans filing

theorem Single.owed (single : Single s dir) (owed : Owed s dir) {k : Nat} {call : Call} (held : s.calls[k]? = some call)
    (running : ∀ status id, call.phase ≠ .returned status id) (entry : UInt64 × List UInt8) (member : entry ∈ dir) :
    s.server.Present entry.1 ∨ call.phase = .filing entry.1 := by
  rcases owed entry member with present | ⟨other,inside,filing⟩
  · exact .inl present
  · obtain ⟨i,there⟩ := List.mem_iff_getElem?.mp inside
    by_cases same : i = k
    · cases same
      cases Option.some.inj (held.symm.trans there)
      exact .inr filing
    · obtain ⟨status,id,returned⟩ := single.rest held running there same
      cases returned.symm.trans filing

theorem Owed.ofPresent (present : ∀ entry ∈ dir, s.server.Present entry.1) : Owed s dir :=
  fun entry member => .inl (present entry member)

theorem owed_step (single : Single s dir) (owed : Owed s dir) (turn : Turn s dir label s' dir')
    (completed : Completed s label) : Owed s' dir' := by
  -- Before its second put the running call owes nothing.
  have paid : ∀ {k : Nat} {call : Call}, s.calls[k]? = some call → (∀ status id, call.phase ≠ .returned status id) →
      (∀ id, call.phase ≠ .filing id) → ∀ entry ∈ dir, s.server.Present entry.1 := by
    intro k call held running early entry member
    exact (single.owed owed held running entry member).resolve_right (early entry.1)
  cases turn with
  | create =>
    intro entry member
    rcases owed entry member with present | ⟨call,inside,filing⟩
    · exact .inl present
    · exact .inr ⟨call,List.mem_append_left _ inside,filing⟩
  | refused held at_ =>
    rcases at_ with at_ | at_
    · exact .ofPresent (paid held (by simp [at_]) (by simp [at_]))
    · exact .ofPresent (paid held (by simp [at_]) (by simp [at_]))
  | missed held at_ => exact .ofPresent (paid held (by simp [at_]) (by simp [at_]))
  | found held at_ => exact .ofPresent (paid held (by simp [at_]) (by simp [at_]))
  | read held at_ => exact .ofPresent (paid held (by simp [at_]) (by simp [at_]))
  | draw held at_ => exact .ofPresent (paid held (by simp [at_]) (by simp [at_]))
  | write held at_ root isFile effective fits =>
    rename_i k call inum delivery fl
    cases single.current _ _ _ held (.inr ⟨_,at_⟩)
    intro entry member
    rcases List.mem_append.mp member with old | new
    · exact .inl (present_put (paid held (by simp [at_]) (by simp [at_]) entry old) _ _)
    · rw [List.mem_singleton.mp new]
      cases delivery with
      | requestLost => exact absurd rfl effective
      | delivered => exact .inr ⟨_,List.mem_of_getElem? (Machine.entry_self held),rfl⟩
      | replyLost => exact .inl (present_put (completed call inum held (.inl ⟨⟨_,at_⟩,rfl⟩)) _ _)
  | unwritten held at_ => exact .ofPresent (paid held (by simp [at_]) (by simp [at_]))
  | file held at_ =>
    refine .ofPresent fun entry member => (ExtentServer.put_present _ _ _ _).mpr ?_
    rcases single.owed owed held (by simp [at_]) entry member with present | filing
    · exact .inr present
    · cases at_.symm.trans filing
      exact .inl rfl
  | unfiled held at_ =>
    refine .ofPresent fun entry member => ?_
    rcases single.owed owed held (by simp [at_]) entry member with present | filing
    · exact present
    · exact completed _ _ held (.inr ⟨filing,rfl⟩)

theorem runs_owed (path : Machine.Runs (Creates.step junk) Alone initial labels s)
    (complete : Machine.Runs (Creates.step junk) Completed initial labels s) : ∃ dir, Single s dir ∧ Owed s dir := by
  induction complete with
  | nil =>
    obtain ⟨dir,single⟩ := runs_single path
    cases initial_rooted.unique single.stored
    exact ⟨[],single,fun entry member => absurd member List.not_mem_nil⟩
  | snoc prior completed taken ih =>
    obtain ⟨mid,before,alone,again⟩ := path.snoc_inv
    cases before.deterministic prior
    obtain ⟨dir,single,owed⟩ := ih before
    obtain ⟨dir',turn⟩ := single.toRooted.turn taken
    exact ⟨dir',single.step alone turn,owed_step single owed turn completed⟩

theorem Single.idle (single : Single s dir) {k : Nat} {call : Call} (held : s.calls[k]? = some call)
    (running : ∀ status id, call.phase ≠ .returned status id)
    (moved : s'.calls = s.calls.set k {call with phase:=.returned status inum}) : Idle s' := by
  intro other inside
  obtain ⟨i,there⟩ := List.mem_iff_getElem?.mp inside
  rw [moved] at there
  rcases Machine.entry_cases there with ⟨_,rfl⟩ | ⟨different,old⟩
  · exact ⟨status,inum,rfl⟩
  · exact single.rest held running old different

theorem completed_elsewhere {k : Nat} {call : Call} (held : s.calls[k]? = some call)
    (writing : ∀ fl id, call.phase ≠ .writing fl id) (filing : ∀ id, call.phase ≠ .filing id) :
    Completed s (.rpc k delivery) := by
  intro other id there
  cases Option.some.inj (held.symm.trans there)
  rintro (⟨⟨fl,at_⟩,_⟩ | ⟨at_,_⟩)
  · exact absurd at_ (writing fl id)
  · exact absurd at_ (filing id)

theorem quiet_step (single : Single s dir) (owed : Owed s dir) (turn : Turn s dir label s' dir') :
    Quiet s' ↔ Completed s label := by
  refine ⟨fun quiet => ?_,fun completed =>
    (owed_step single owed turn completed).quiet (single.toRooted.step turn)⟩
  have after := noDangling_iff (single.toRooted.step turn)
  cases turn with
  | create => trivial
  | refused held at_ =>
    rcases at_ with at_ | at_
    · exact completed_elsewhere held (by simp [at_]) (by simp [at_])
    · exact completed_elsewhere held (by simp [at_]) (by simp [at_])
  | missed held at_ => exact completed_elsewhere held (by simp [at_]) (by simp [at_])
  | found held at_ => exact completed_elsewhere held (by simp [at_]) (by simp [at_])
  | read held at_ => exact completed_elsewhere held (by simp [at_]) (by simp [at_])
  | draw held at_ => trivial
  | write held at_ root isFile effective fits =>
    intro other id there
    cases Option.some.inj (held.symm.trans there)
    rintro (⟨⟨fl,writing⟩,rfl⟩ | ⟨filing,_⟩)
    · cases at_.symm.trans writing
      have none := after.mp (quiet (single.idle held (by simp [at_]) rfl))
      exact (present_root isFile _).mp (none _ (List.mem_append_right _ List.mem_cons_self))
    · cases at_.symm.trans filing
  | unwritten held at_ =>
    intro other id there
    cases Option.some.inj (held.symm.trans there)
    rintro (⟨_,other⟩ | ⟨filing,_⟩)
    · cases other
    · cases at_.symm.trans filing
  | file held at_ root isFile effective =>
    intro other id there
    cases Option.some.inj (held.symm.trans there)
    rintro (⟨⟨fl,writing⟩,_⟩ | ⟨_,lost⟩)
    · cases at_.symm.trans writing
    · exact absurd lost effective
  | unfiled held at_ =>
    intro other id there
    cases Option.some.inj (held.symm.trans there)
    rintro (⟨_,other⟩ | ⟨filing,_⟩)
    · cases other
    · have none := after.mp (quiet (single.idle held (by simp [at_]) rfl))
      exact none _ (single.filed _ _ id held filing)

theorem noDangling_initial : NoDangling initial := by
  rw [noDangling_iff initial_rooted]
  exact fun entry none => absurd none List.not_mem_nil

theorem entries_present_iff (path : Machine.Runs (Creates.step junk) Alone initial labels s) :
    ((∀ earlier later mid, labels = earlier ++ later →
        Machine.Runs (Creates.step junk) Alone initial earlier mid → NoDangling mid) ↔
      Machine.Runs (Creates.step junk) Prepared initial labels s) ∧
    ((∀ earlier later mid, labels = earlier ++ later →
        Machine.Runs (Creates.step junk) Alone initial earlier mid → Idle mid → NoDangling mid) ↔
      Machine.Runs (Creates.step junk) Completed initial labels s) := by
  constructor
  · apply path.throughout_iff NoDangling noDangling_initial
    intro earlier before label after prior _ _ taken none
    obtain ⟨dir,single⟩ := runs_single prior
    obtain ⟨dir',turn⟩ := single.toRooted.turn taken
    exact noDangling_step single turn none
  · apply path.throughout_iff Quiet (fun _ => noDangling_initial)
    intro earlier before label after prior complete _ taken _
    obtain ⟨dir,single,owed⟩ := runs_owed prior complete
    obtain ⟨dir',turn⟩ := single.toRooted.turn taken
    exact quiet_step single owed turn

-- The second put of createfile fails. The name stays in the directory, and the
-- next createfile of it returns OK with an inum that has no attributes.
def failedCreate : List Label :=
  [.create 1 [97] 0,.rpc 0 .delivered,.rpc 0 .delivered,.draw 0 (.wrap 0),.rpc 0 .delivered,.rpc 0 .requestLost]
def retry : List Label := [.create 1 [97] 0,.rpc 1 .delivered]

theorem failed_create_dangles :
    ∃ s, Machine.Runs (Creates.step fun _ => 0) Alone initial (failedCreate ++ retry) s ∧
      s.calls = [⟨1,[97],.returned .IOERR 0x80000000⟩,⟨1,[97],.returned .OK 0x80000000⟩] ∧
      s.server.getattr 0x80000000 = none ∧ ¬ NoDangling s := by
  have ran : (Machine.exec (Machine.guarded (Creates.step fun _ => 0) Alone) initial (failedCreate ++ retry)).map
      (fun s => (s.calls,s.server.get 1,s.server.getattr 0x80000000)) =
      some ([⟨1,[97],.returned .IOERR 0x80000000⟩,⟨1,[97],.returned .OK 0x80000000⟩],
        some (serialize [(0x80000000,[97])]),none) := by decide +kernel
  obtain ⟨s,path,view⟩ := Machine.guarded_observed ran
  obtain ⟨calls,view⟩ := Prod.mk.inj view
  obtain ⟨stored,missing⟩ := Prod.mk.inj view
  refine ⟨s,path,calls,missing,fun none => ?_⟩
  have present := (none _ stored (0x80000000,[97]) (by simp)).2
  rw [missing] at present
  cases present

def goodCreate : List Label :=
  [.create 1 [97] 0,.rpc 0 .delivered,.rpc 0 .delivered,.draw 0 (.wrap 0),.rpc 0 .delivered,.rpc 0 .delivered]

theorem good_create_present :
    ∃ s, Machine.Runs (Creates.step fun _ => 0) Alone initial goodCreate s ∧
      s.server.get 1 = some (serialize [(0x80000000,[97])]) ∧ NoDangling s := by
  have ran : (Machine.exec (Machine.guarded (Creates.step fun _ => 0) Alone) initial goodCreate).map
      (fun s => (s.calls,s.server.get 1)) =
      some ([⟨1,[97],.returned .OK 0x80000000⟩],some (serialize [(0x80000000,[97])])) := by decide +kernel
  obtain ⟨s,path,view⟩ := Machine.guarded_observed ran
  obtain ⟨calls,stored⟩ := Prod.mk.inj view
  have allowed : ∀ label ∈ goodCreate, ∀ state, Completed state label := by simp [goodCreate,Completed]
  have complete : Machine.Runs (Creates.step fun _ => 0) Completed initial goodCreate s := by
    have ran' : (Machine.exec (Creates.step fun _ => 0) initial goodCreate).map (fun _ => ()) = some () := by
      decide +kernel
    obtain ⟨t,again,_⟩ := Machine.exec_observed ran' allowed
    exact again.deterministic path ▸ again
  refine ⟨s,path,stored,(entries_present_iff path).2.mpr complete goodCreate [] s (by simp) path ?_⟩
  intro call member
  rw [calls,List.mem_singleton] at member
  exact ⟨_,_,by rw [member]⟩

end YfsLab.Dangling
