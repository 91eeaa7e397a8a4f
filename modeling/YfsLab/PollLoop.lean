import YfsLab.Wakeups

namespace YfsLab.PollLoop

-- Where the poll thread stands in wait_loop, as far as one connection's fd is
-- concerned: with the fd sets it has copied for select, with its lists of ready
-- fds, or past the test of callbacks_[fd] and before m_ of the connection.
inductive PollPc where
  | top
  | waitReady
  | select (r w : Bool)
  | readable (w : Bool)
  | readCb (w : Bool)
  | writable
  | writeCb
  deriving DecidableEq, Repr

-- The one call of block_remove_fd for a connection: whoever sets dead_ outside
-- the poll thread makes it.
inductive Removal where
  | none
  | called
  | waiting (signalled : Bool)
  | returned
  deriving DecidableEq, Repr

-- `rfd` and `wfd` are the fd's places in rfds_ and wfds_, `callback` whether
-- callbacks_[fd] is set and `pending` is pending_change_.
structure State where
  conn : Send.State
  poll : PollPc
  removal : Removal
  rfd : Bool
  wfd : Bool
  callback : Bool
  pending : Bool

-- The constructor of the connection has called add_callback with CB_RDONLY.
def initial : State :=
  {conn:=Send.initial,poll:=.top,removal:=.none,rfd:=true,wfd:=false,callback:=true,pending:=false}

-- del_callback with CB_WRONLY and with CB_RDWR.
def delWrite (s : State) : State := {s with wfd:=false,callback:=s.callback && s.rfd}
def delBoth (s : State) : State := {s with rfd:=false,wfd:=false,callback:=false}

-- What a sender's critical section does to the poll manager: the sender whose
-- PDU is not written to its end adds the write callback, the one whose write
-- has failed goes on to block_remove_fd.
def afterSend (s : State) (k : Nat) (conn : Send.State) : State :=
  if s.conn.dead = false ∧ conn.wpdu.buf = some k then
    if conn.dead then {s with conn:=conn,removal:=.called}
    else {s with conn:=conn,wfd:=true,callback:=true}
  else {s with conn:=conn}

def others (s : State) (label : Send.Label) : Option State :=
  match label with
  | .send _ _ => (Send.step s.conn label).map (afterSend s s.conn.senders.length)
  | .wakeTurn k _ => (Send.step s.conn label).map (afterSend s k)
  | .wakeComplete _ => (Send.step s.conn label).map fun conn => {s with conn:=conn}
  | .removed _ =>
    if s.removal = .returned then (Send.step s.conn label).map fun conn => {s with conn:=conn} else none
  | .closeconn =>
    if s.conn.dead then some s
    else (Send.step s.conn label).map fun conn => {s with conn:=conn,removal:=.called}
  | .writeCb _ | .readFails => none

-- What comes after the fd's turn in the list of readable fds.
def afterReadable (w : Bool) : PollPc := if w then .writable else .top

def readCb (s : State) (w fails : Bool) : Option State :=
  if s.conn.dead = false ∧ fails then
    (Send.step s.conn .readFails).map fun conn => {delBoth s with conn:=conn,poll:=afterReadable w}
  else some {s with poll:=afterReadable w}

def writeCb (s : State) (result : Send.WriteResult) : Option State :=
  (Send.step s.conn (.writeCb result)).map fun conn =>
    if s.conn.dead then {s with conn:=conn}
    else if s.conn.wpdu.sz = 0 then {delWrite s with conn:=conn,poll:=.top}
    else if conn.dead then {delBoth s with conn:=conn,poll:=.top}
    else {s with conn:=conn,poll:=.top}

-- `unwatch` to `wakes` are block_remove_fd. A thread in pthread_cond_wait may
-- wake without a signal, and other fds are removed at any time.
inductive Label where
  | others (label : Send.Label)
  | unwatch
  | spurious
  | wakes
  | otherChange
  | broadcast
  | copy
  | selected (r w : Bool)
  | testRead
  | readCb (fails : Bool)
  | testWrite
  | writeCb (result : Send.WriteResult)

def Removal.signal : Removal → Removal
  | .waiting _ => .waiting true
  | removal => removal

def step (s : State) (label : Label) : Option State :=
  if s.conn.aborted then none else
  match label with
  | .others label => others s label
  | .unwatch =>
    if s.removal = .called then some {s with rfd:=false,wfd:=false,pending:=true,removal:=.waiting false} else none
  | .spurious => some {s with removal:=s.removal.signal}
  | .wakes => if s.removal = .waiting true then some {s with callback:=false,removal:=.returned} else none
  | .otherChange => some {s with pending:=true}
  | .broadcast =>
    if s.poll = .top then
      some {s with
        poll:=.waitReady
        pending:=false
        removal:=if s.pending then s.removal.signal else s.removal}
    else none
  | .copy => if s.poll = .waitReady then some {s with poll:=.select s.rfd s.wfd} else none
  | .selected r w =>
    match s.poll with
    | .select r0 w0 =>
      if (r → r0) ∧ (w → w0) then some {s with poll:=if r then .readable w else afterReadable w} else none
    | _ => none
  | .testRead =>
    match s.poll with
    | .readable w => some {s with poll:=if s.callback then .readCb w else afterReadable w}
    | _ => none
  | .readCb fails =>
    match s.poll with
    | .readCb w => readCb s w fails
    | _ => none
  | .testWrite => if s.poll = .writable then some {s with poll:=if s.callback then .writeCb else .top} else none
  | .writeCb result => if s.poll = .writeCb then writeCb s result else none

inductive Step (s : State) : Label → State → Prop where
  | others : others s label = some s' → Step s (.others label) s'
  | unwatch : s.removal = .called →
      Step s .unwatch {s with rfd:=false,wfd:=false,pending:=true,removal:=.waiting false}
  | spurious : Step s .spurious {s with removal:=s.removal.signal}
  | wakes : s.removal = .waiting true → Step s .wakes {s with callback:=false,removal:=.returned}
  | otherChange : Step s .otherChange {s with pending:=true}
  | broadcast : s.poll = .top →
      Step s .broadcast {s with
        poll:=.waitReady
        pending:=false
        removal:=if s.pending then s.removal.signal else s.removal}
  | copy : s.poll = .waitReady → Step s .copy {s with poll:=.select s.rfd s.wfd}
  | selected : s.poll = .select r0 w0 → (r = true → r0 = true) → (w = true → w0 = true) →
      Step s (.selected r w) {s with poll:=if r then .readable w else afterReadable w}
  | testRead : s.poll = .readable w → Step s .testRead {s with poll:=if s.callback then .readCb w else afterReadable w}
  | readCb : s.poll = .readCb w → readCb s w fails = some s' → Step s (.readCb fails) s'
  | testWrite : s.poll = .writable → Step s .testWrite {s with poll:=if s.callback then .writeCb else .top}
  | writeCb : s.poll = .writeCb → writeCb s result = some s' → Step s (.writeCb result) s'

theorem step_sound (taken : step s label = some s') : s.conn.aborted = false ∧ Step s label s' := by
  unfold step at taken
  obtain ⟨running,taken⟩ := Option.ite_none_left_eq_some.mp taken
  refine ⟨by simpa using running,?_⟩
  cases label with
  | others label => exact .others taken
  | unwatch =>
    obtain ⟨called,taken⟩ := Option.ite_none_right_eq_some.mp taken
    cases Option.some.inj taken; exact .unwatch called
  | spurious => cases Option.some.inj taken; exact .spurious
  | wakes =>
    obtain ⟨signalled,taken⟩ := Option.ite_none_right_eq_some.mp taken
    cases Option.some.inj taken; exact .wakes signalled
  | otherChange => cases Option.some.inj taken; exact .otherChange
  | broadcast =>
    obtain ⟨at_,taken⟩ := Option.ite_none_right_eq_some.mp taken
    cases Option.some.inj taken; exact .broadcast at_
  | copy =>
    obtain ⟨at_,taken⟩ := Option.ite_none_right_eq_some.mp taken
    cases Option.some.inj taken; exact .copy at_
  | selected r w =>
    dsimp only at taken
    split at taken
    · rename_i at_
      obtain ⟨ready,taken⟩ := Option.ite_none_right_eq_some.mp taken
      cases Option.some.inj taken; exact .selected at_ ready.1 ready.2
    · cases taken
  | testRead =>
    dsimp only at taken
    split at taken
    · rename_i at_; cases Option.some.inj taken; exact .testRead at_
    · cases taken
  | readCb fails =>
    dsimp only at taken
    split at taken
    · rename_i at_; exact .readCb at_ taken
    · cases taken
  | testWrite =>
    obtain ⟨at_,taken⟩ := Option.ite_none_right_eq_some.mp taken
    cases Option.some.inj taken; exact .testWrite at_
  | writeCb result =>
    obtain ⟨at_,taken⟩ := Option.ite_none_right_eq_some.mp taken
    exact .writeCb at_ taken

def picked : PollPc → Bool
  | .select _ w | .readable w | .readCb w => w
  | .writable | .writeCb => true
  | .top | .waitReady => false

def Exposed (s : State) : Prop := s.wfd = true ∨ picked s.poll = true

-- A thread other than the poll thread sets dead_: in closeconn, or in send when
-- the first write of its PDU fails.
def Kills (s : State) : Label → Prop
  | .others .closeconn => s.conn.dead = false
  | .others (.send _ .error) | .others (.wakeTurn _ .error) => s.conn.dead = false ∧ s.conn.wpdu.buf = none
  | _ => False

def Covered (s : State) (label : Label) : Prop := Kills s label → ¬ Exposed s

instance (s : State) : Decidable (Exposed s) := inferInstanceAs (Decidable (_ ∨ _))

instance (s : State) (label : Label) : Decidable (Kills s label) :=
  match label with
  | .others .closeconn => inferInstanceAs (Decidable (_ = _))
  | .others (.send _ .error) | .others (.wakeTurn _ .error) => inferInstanceAs (Decidable (_ ∧ _))
  | .others (.send _ (.wrote _)) | .others (.send _ .again) | .others (.wakeTurn _ (.wrote _))
  | .others (.wakeTurn _ .again) | .others (.wakeComplete _) | .others (.removed _) | .others (.writeCb _)
  | .others .readFails | .unwatch | .spurious | .wakes | .otherChange | .broadcast | .copy | .selected _ _
  | .testRead | .readCb _ | .testWrite | .writeCb _ => .isFalse id

instance (s : State) (label : Label) : Decidable (Covered s label) := inferInstanceAs (Decidable (_ → _))

section Sections
variable {conn conn' : Send.State} {k : Nat} {sender : Send.Sender} {result : Send.WriteResult}

theorem writepdu_running (begun : 0 ≤ conn.wpdu.solong) (wrote : Send.writepdu conn result = some (succ,conn')) :
    conn'.aborted = conn.aborted ∧ (succ = false → result = .error) := by
  unfold Send.writepdu at wrote
  rw [if_neg (by omega)] at wrote
  split at wrote
  · cases Option.some.inj wrote; exact ⟨rfl,by simp⟩
  · split at wrote
    · cases wrote
    · split at wrote
      · cases wrote
      · cases result with
        | wrote n =>
          obtain ⟨_,wrote⟩ := Option.ite_none_right_eq_some.mp wrote
          cases Option.some.inj wrote; exact ⟨rfl,by simp⟩
        | again => cases Option.some.inj wrote; exact ⟨rfl,by simp⟩
        | error => cases Option.some.inj wrote; exact ⟨rfl,fun _ => rfl⟩

theorem finish_running (conn : Send.State) (k : Nat) (sender : Send.Sender) :
    (Send.finish conn k sender).aborted = conn.aborted := by
  unfold Send.finish
  dsimp only
  split <;> rfl

theorem takeTurn_running (taken : Send.takeTurn conn k sender result = some conn') :
    conn'.aborted = conn.aborted ∧
      (conn'.dead = true → conn.dead = true ∨ conn.wpdu.buf = none ∧ result = .error) := by
  unfold Send.takeTurn at taken
  split at taken
  · cases Option.some.inj taken; exact ⟨rfl,.inl⟩
  · rename_i turn
    unfold Send.enter at taken
    dsimp only at taken
    split at taken
    · rename_i dead
      cases Option.some.inj taken; exact ⟨rfl,fun _ => .inl dead⟩
    · rename_i alive
      have free : conn.wpdu.buf = none := by
        by_contra busy
        exact turn ⟨by simpa using alive,busy⟩
      split at taken
      · cases taken
      · rename_i succ mid wrote
        obtain ⟨running,failed⟩ := writepdu_running (Int.le_refl 0) wrote
        have dead : mid.dead = conn.dead := (Wakeups.writepdu_keeps wrote).1
        split at taken
        · cases taken
        · split at taken
          · rename_i failing
            cases Option.some.inj taken; exact ⟨running,fun _ => .inr ⟨free,failed failing⟩⟩
          · split at taken
            · cases Option.some.inj taken
              refine ⟨(finish_running _ _ _).trans running,fun gone => .inl ?_⟩
              rwa [(Send.finish_keeps _ _ _).1,dead] at gone
            · cases Option.some.inj taken
              exact ⟨running,fun gone => .inl (dead ▸ gone)⟩

theorem takeTurn_fails (alive : conn.dead = false) (free : conn.wpdu.buf = none)
    (taken : Send.takeTurn conn k sender .error = some conn') : conn'.dead = true := by
  unfold Send.takeTurn at taken
  rw [if_neg (by simp [free])] at taken
  unfold Send.enter at taken
  dsimp only at taken
  rw [if_neg (by simp [alive])] at taken
  split at taken
  · cases taken
  · rename_i succ mid wrote
    have failed : succ = false := by
      have headed := sender.b.headed
      simp only [rpcHeaderSz] at headed
      unfold Send.writepdu at wrote
      rw [if_neg (by simp [Send.setSender])] at wrote
      rw [if_neg (by simp only [Send.setSender]; omega)] at wrote
      dsimp only [Send.setSender] at wrote
      split at wrote
      · cases wrote
      · cases Option.some.inj wrote; rfl
    split at taken
    · cases taken
    · rw [if_pos failed] at taken
      cases Option.some.inj taken
      rfl

theorem writeCb_running (written : Send.Written conn full part) (alive : conn.dead = false)
    (taken : Send.writeCb conn result = some conn') : conn'.aborted = conn.aborted := by
  unfold Send.writeCb at taken
  rw [if_neg (by simp [alive])] at taken
  split at taken
  · cases Option.some.inj taken; rfl
  · rename_i busy
    have begun : 0 ≤ conn.wpdu.solong := by
      cases own : conn.wpdu.buf with
      | none =>
        have null := (written.idle own).1
        simp [null,Send.Charbuf.null]
      | some k =>
        obtain ⟨_,sender,_,writing⟩ := written.busy k own
        cases writing with
        | good n _ solong => omega
        | failed n dead => rw [alive] at dead; cases dead
    split at taken
    · cases taken
    · rename_i wrote
      have running := (writepdu_running begun wrote).1
      split at taken
      · cases Option.some.inj taken; exact running
      · split at taken
        · cases Option.some.inj taken; exact running
        · cases Option.some.inj taken; exact running

theorem readFails_running (taken : Send.step conn .readFails = some conn') : conn'.aborted = conn.aborted := by
  cases Send.step_sound taken with
  | readLate | readFails => rfl

theorem others_running {label : Send.Label} (taken : Send.step conn label = some conn')
    (outside : (∀ result, label ≠ .writeCb result) ∧ label ≠ .readFails) :
    conn'.aborted = conn.aborted ∧ (conn'.dead = true → conn.dead = true ∨ label = .closeconn ∨
      conn.wpdu.buf = none ∧ ((∃ b, label = .send b .error) ∨ ∃ k, label = .wakeTurn k .error)) := by
  cases Send.step_sound taken with
  | @send b _ _ entered =>
    obtain ⟨running,dies⟩ := takeTurn_running entered
    refine ⟨running,fun gone => (dies gone).imp_right fun failed => .inr ⟨failed.1,.inl ⟨b,?_⟩⟩⟩
    rw [failed.2]
  | @wakeTurn k _ _ _ _ _ _ entered =>
    obtain ⟨running,dies⟩ := takeTurn_running entered
    refine ⟨running,fun gone => (dies gone).imp_right fun failed => .inr ⟨failed.1,.inr ⟨k,?_⟩⟩⟩
    rw [failed.2]
  | parksAgain => exact ⟨rfl,.inl⟩
  | completes | removed =>
    exact ⟨finish_running _ _ _,fun gone => .inl (by rwa [(Send.finish_keeps _ _ _).1] at gone)⟩
  | writeCb => exact absurd rfl (outside.1 _)
  | readLate | readFails => exact absurd rfl outside.2
  | closeconn => exact ⟨rfl,fun _ => .inr (.inl rfl)⟩

end Sections

variable {s s' : State} {conn : Send.State} {label : Label}

-- Once dead_ is set the poll thread has no way to write_cb.
structure Invariant (s : State) : Prop where
  written : ∃ full part, Send.Written s.conn full part
  running : s.conn.aborted = false
  unwatched : s.conn.dead = true → s.wfd = false
  uncalled : s.conn.dead = true → picked s.poll = true → s.callback = false
  alive : s.poll = .writeCb → s.conn.dead = false

theorem initial_invariant : Invariant initial :=
  ⟨⟨[],[],Send.initial_written⟩,rfl,fun _ => rfl,by simp [initial,picked],by simp [initial]⟩

theorem Invariant.others {label : Send.Label} (valid : Invariant s) (covered : Covered s (.others label))
    (taken : Send.step s.conn label = some conn) (outside : (∀ result, label ≠ .writeCb result) ∧ label ≠ .readFails) :
    Invariant {s with conn:=conn} := by
  obtain ⟨full,part,written⟩ := valid.written
  obtain ⟨running,dies⟩ := others_running taken outside
  have hidden : conn.dead = true → s.conn.dead = true ∨ ¬ Exposed s := by
    intro gone
    by_cases before : s.conn.dead = true
    · exact .inl before
    · have before : s.conn.dead = false := by simpa using before
      refine .inr (covered ?_)
      rcases dies gone with dead | rfl | ⟨free,⟨b,rfl⟩ | ⟨k,rfl⟩⟩
      · rw [before] at dead; cases dead
      · exact before
      · exact ⟨before,free⟩
      · exact ⟨before,free⟩
  constructor
  case written => exact Send.step_written written taken
  case running => exact running.trans valid.running
  case unwatched =>
    intro gone
    rcases hidden gone with before | hidden
    · exact valid.unwatched before
    · simpa using fun watched => hidden (.inl watched)
  case uncalled =>
    intro gone there
    rcases hidden gone with before | hidden
    · exact valid.uncalled before there
    · exact absurd (.inr there) hidden
  case alive =>
    intro entering
    by_contra gone
    rcases hidden (by simpa using gone) with before | hidden
    · rw [valid.alive entering] at before; cases before
    · exact hidden (.inr (by rw [entering]; rfl))

theorem Invariant.afterSend (valid : Invariant {s with conn:=conn}) (k : Nat) : Invariant (afterSend s k conn) := by
  obtain ⟨written,running,unwatched,uncalled,alive⟩ := valid
  unfold PollLoop.afterSend
  split
  · split
    · exact ⟨written,running,unwatched,uncalled,alive⟩
    · rename_i going
      exact ⟨written,running,fun gone => absurd gone going,fun gone => absurd gone going,alive⟩
  · exact ⟨written,running,unwatched,uncalled,alive⟩

theorem others_invariant {label : Send.Label} (valid : Invariant s) (covered : Covered s (.others label))
    (taken : others s label = some s') : Invariant s' := by
  cases label with
  | send b result =>
    obtain ⟨conn,section_,rfl⟩ := Option.map_eq_some_iff.mp taken
    exact (valid.others covered section_ (by simp)).afterSend _
  | wakeTurn k result =>
    obtain ⟨conn,section_,rfl⟩ := Option.map_eq_some_iff.mp taken
    exact (valid.others covered section_ (by simp)).afterSend _
  | wakeComplete k =>
    obtain ⟨conn,section_,rfl⟩ := Option.map_eq_some_iff.mp taken
    exact valid.others covered section_ (by simp)
  | removed k =>
    obtain ⟨_,taken⟩ := Option.ite_none_right_eq_some.mp taken
    obtain ⟨conn,section_,rfl⟩ := Option.map_eq_some_iff.mp taken
    exact valid.others covered section_ (by simp)
  | closeconn =>
    unfold others at taken
    dsimp only at taken
    split at taken
    · cases Option.some.inj taken; exact valid
    · obtain ⟨conn,section_,rfl⟩ := Option.map_eq_some_iff.mp taken
      obtain ⟨written,running,unwatched,uncalled,alive⟩ := valid.others covered section_ (by simp)
      exact ⟨written,running,unwatched,uncalled,alive⟩
  | writeCb result => cases taken
  | readFails => cases taken

theorem picked_afterReadable (w : Bool) : picked (afterReadable w) = w := by cases w <;> rfl

theorem readCb_invariant (valid : Invariant s) (at_ : s.poll = .readCb w) (taken : readCb s w fails = some s') :
    Invariant s' := by
  unfold readCb at taken
  have entering : afterReadable w = .writeCb → s'.conn.dead = false := by cases w <;> simp [afterReadable]
  split at taken
  · obtain ⟨conn,section_,rfl⟩ := Option.map_eq_some_iff.mp taken
    obtain ⟨full,part,written⟩ := valid.written
    refine ⟨Send.step_written written section_,?_,fun _ => rfl,fun _ _ => rfl,entering⟩
    exact (readFails_running section_).trans valid.running
  · cases Option.some.inj taken
    refine ⟨valid.written,valid.running,valid.unwatched,fun gone there => valid.uncalled gone ?_,entering⟩
    rw [picked_afterReadable] at there
    rw [at_,there]
    rfl

theorem writeCb_invariant (valid : Invariant s) (at_ : s.poll = .writeCb) (taken : writeCb s result = some s') :
    Invariant s' := by
  obtain ⟨full,part,written⟩ := valid.written
  have alive := valid.alive at_
  obtain ⟨conn,section_,rfl⟩ := Option.map_eq_some_iff.mp taken
  have called : Send.writeCb s.conn result = some conn := by simpa [Send.step,valid.running] using section_
  have running : conn.aborted = false := (writeCb_running written alive called).trans valid.running
  have after := Send.step_written written section_
  rw [if_neg (by simp [alive])]
  split
  · exact ⟨after,running,fun _ => rfl,by simp [picked],by simp⟩
  · split
    · exact ⟨after,running,fun _ => rfl,by simp [picked],by simp⟩
    · rename_i going
      exact ⟨after,running,fun gone => absurd gone going,by simp [picked],by simp⟩

theorem step_invariant (valid : Invariant s) (covered : Covered s label) (taken : step s label = some s') :
    Invariant s' := by
  obtain ⟨written,running,unwatched,uncalled,alive⟩ := valid
  cases (step_sound taken).2 with
  | others taken => exact others_invariant ⟨written,running,unwatched,uncalled,alive⟩ covered taken
  | unwatch => exact ⟨written,running,fun _ => rfl,uncalled,alive⟩
  | spurious | otherChange => exact ⟨written,running,unwatched,uncalled,alive⟩
  | wakes => exact ⟨written,running,unwatched,fun _ _ => rfl,alive⟩
  | broadcast => exact ⟨written,running,unwatched,by simp [picked],by simp⟩
  | copy =>
    refine ⟨written,running,unwatched,fun gone there => ?_,by simp⟩
    rw [picked,unwatched gone] at there
    cases there
  | @selected _ _ r w at_ _ ready =>
    refine ⟨written,running,unwatched,fun gone there => uncalled gone ?_,?_⟩
    · rw [at_]
      apply ready
      cases r with
      | true => exact there
      | false => rwa [if_neg (by simp),picked_afterReadable] at there
    · cases r <;> cases w <;> simp [afterReadable]
  | @testRead w at_ =>
    refine ⟨written,running,unwatched,fun gone there => uncalled gone ?_,?_⟩
    · rw [at_]
      dsimp only at there
      split at there
      · exact there
      · rwa [picked_afterReadable] at there
    · dsimp only
      cases w <;> split <;> simp [afterReadable]
  | readCb at_ taken => exact readCb_invariant ⟨written,running,unwatched,uncalled,alive⟩ at_ taken
  | testWrite at_ =>
    have unset : s.conn.dead = true → s.callback = false := fun gone => uncalled gone (by rw [at_]; rfl)
    refine ⟨written,running,unwatched,fun gone _ => unset gone,fun entering => ?_⟩
    by_contra gone
    simp [unset (by simpa using gone)] at entering
  | writeCb at_ taken => exact writeCb_invariant ⟨written,running,unwatched,uncalled,alive⟩ at_ taken

-- write_cb is not entered on a dead connection, and no assertion has failed.
def Asserts (s : State) : Prop := (s.poll = .writeCb → s.conn.dead = false) ∧ s.conn.aborted = false

def Label.polls : Label → Bool
  | .broadcast | .copy | .selected _ _ | .testRead | .readCb _ | .testWrite | .writeCb _ => true
  | .others _ | .unwatch | .spurious | .wakes | .otherChange => false

-- That is so now and however far the poll thread goes before the others.
def Safe (s : State) : Prop :=
  ∀ more t, (∀ label ∈ more, label.polls = true) → Machine.Runs step Machine.free s more t → Asserts t

theorem polls_covered (polls : label.polls = true) : Covered s label := by
  intro kills
  cases label with
  | others => cases polls
  | _ => exact kills.elim

theorem Invariant.safe (valid : Invariant s) : Safe s := by
  intro more t polls path
  have still : Invariant t := by
    induction path with
    | nil => exact valid
    | snoc _ _ taken ih =>
      have prior := ih fun label member => polls label (List.mem_append_left _ member)
      exact step_invariant prior (polls_covered (polls _ (by simp))) taken
  exact ⟨still.alive,still.running⟩

-- A live connection is listed with the poll manager, and only the killer of a
-- connection removes it.
structure Registered (s : State) : Prop where
  removed : s.removal ≠ .none → s.conn.dead = true
  listed : s.conn.dead = false → s.rfd = true ∧ s.callback = true

theorem Registered.of_dead (gone : s.conn.dead = true) : Registered s :=
  ⟨fun _ => gone,fun alive => by rw [gone] at alive; cases alive⟩

theorem initial_registered : Registered initial := ⟨by simp [initial],fun _ => ⟨rfl,rfl⟩⟩

theorem Registered.with_conn (registered : Registered s) (dead : s.conn.dead = true → conn.dead = true) :
    Registered {s with conn:=conn} := by
  refine ⟨fun called => dead (registered.removed called),fun alive => registered.listed ?_⟩
  by_contra gone
  rw [dead (by simpa using gone)] at alive
  cases alive

theorem Registered.afterSend (registered : Registered s) (dead : s.conn.dead = true → conn.dead = true) (k : Nat) :
    Registered (afterSend s k conn) := by
  have kept := registered.with_conn dead
  unfold PollLoop.afterSend
  split
  · split
    · rename_i gone; exact .of_dead gone
    · exact ⟨kept.removed,fun alive => ⟨(kept.listed alive).1,rfl⟩⟩
  · exact kept

theorem others_registered {label : Send.Label} (registered : Registered s) (taken : others s label = some s') :
    Registered s' := by
  have dead : ∀ {conn}, Send.step s.conn label = some conn → s.conn.dead = true → conn.dead = true :=
    fun section_ gone => (Send.step_dead gone section_).1
  cases label with
  | send b result =>
    obtain ⟨conn,section_,rfl⟩ := Option.map_eq_some_iff.mp taken
    exact registered.afterSend (dead section_) _
  | wakeTurn k result =>
    obtain ⟨conn,section_,rfl⟩ := Option.map_eq_some_iff.mp taken
    exact registered.afterSend (dead section_) _
  | wakeComplete k =>
    obtain ⟨conn,section_,rfl⟩ := Option.map_eq_some_iff.mp taken
    exact registered.with_conn (dead section_)
  | removed k =>
    obtain ⟨_,taken⟩ := Option.ite_none_right_eq_some.mp taken
    obtain ⟨conn,section_,rfl⟩ := Option.map_eq_some_iff.mp taken
    exact registered.with_conn (dead section_)
  | closeconn =>
    unfold others at taken
    dsimp only at taken
    split at taken
    · cases Option.some.inj taken; exact registered
    · obtain ⟨conn,section_,rfl⟩ := Option.map_eq_some_iff.mp taken
      have gone : conn.dead = true := by
        simp only [Send.step,Option.ite_none_left_eq_some] at section_
        cases Option.some.inj section_.2
        rfl
      exact .of_dead gone
  | writeCb result => cases taken
  | readFails => cases taken

theorem writeCb_registered (registered : Registered s) (taken : writeCb s result = some s') : Registered s' := by
  obtain ⟨conn,section_,rfl⟩ := Option.map_eq_some_iff.mp taken
  have kept := registered.with_conn fun gone => (Send.step_dead gone section_).1
  split
  · exact kept
  · split
    · refine ⟨kept.removed,fun alive => ?_⟩
      obtain ⟨listed,set_⟩ := kept.listed alive
      exact ⟨listed,by simp only [delWrite,Bool.and_eq_true]; exact ⟨set_,listed⟩⟩
    · split
      · rename_i gone; exact .of_dead gone
      · exact ⟨kept.removed,kept.listed⟩

theorem readCb_registered (registered : Registered s) (taken : readCb s w fails = some s') : Registered s' := by
  unfold readCb at taken
  split at taken
  · rename_i failing
    obtain ⟨conn,section_,rfl⟩ := Option.map_eq_some_iff.mp taken
    have gone : conn.dead = true := by
      simp only [Send.step,Option.ite_none_left_eq_some,failing.1] at section_
      cases Option.some.inj section_.2
      rfl
    exact .of_dead gone
  · cases Option.some.inj taken; exact ⟨registered.removed,registered.listed⟩

theorem signal_none {removal : Removal} (called : removal.signal ≠ .none) : removal ≠ .none := by
  intro none
  rw [none] at called
  exact called rfl

theorem step_registered (registered : Registered s) (taken : step s label = some s') : Registered s' := by
  obtain ⟨removed,listed⟩ := registered
  cases (step_sound taken).2 with
  | others taken => exact others_registered ⟨removed,listed⟩ taken
  | unwatch called =>
    have gone := removed (by simp [called])
    exact .of_dead gone
  | spurious => exact ⟨fun called => removed (signal_none called),listed⟩
  | wakes called =>
    have gone := removed (by simp [called])
    exact .of_dead gone
  | broadcast =>
    refine ⟨fun called => removed ?_,listed⟩
    dsimp only at called
    split at called
    · exact signal_none called
    · exact called
  | otherChange | copy | selected | testRead | testWrite => exact ⟨removed,listed⟩
  | readCb _ taken => exact readCb_registered ⟨removed,listed⟩ taken
  | writeCb _ taken => exact writeCb_registered ⟨removed,listed⟩ taken

def Doomed (s : State) : Prop :=
  ∃ more t, (∀ label ∈ more, label.polls = true) ∧ Machine.Runs step Machine.free s more t ∧ t.conn.aborted = true

theorem Doomed.back (doomed : Doomed s') (label : Label) (polls : label.polls = true)
    (taken : step s label = some s') : Doomed s := by
  obtain ⟨more,t,all,path,failed⟩ := doomed
  refine ⟨label :: more,t,?_,(Machine.Runs.single trivial taken).append path,failed⟩
  simpa using ⟨polls,all⟩

theorem Doomed.not_safe (doomed : Doomed s) : ¬ Safe s := by
  obtain ⟨more,t,all,path,failed⟩ := doomed
  intro safe
  have asserts := (safe more t all path).2
  rw [failed] at asserts
  cases asserts

-- dead_ is set and callbacks_[fd] still there.
structure Window (s : State) : Prop where
  dead : s.conn.dead = true
  running : s.conn.aborted = false
  callback : s.callback = true

theorem Window.moves (window : Window s) (poll : PollPc) : Window {s with poll:=poll} :=
  ⟨window.dead,window.running,window.callback⟩

theorem Window.writeCb (window : Window s) (at_ : s.poll = .writeCb) : Doomed s := by
  have failed : Doomed {s with conn:={s.conn with aborted:=true}} := ⟨[],_,by simp,.nil,rfl⟩
  apply failed.back (.writeCb .again) rfl
  simp [step,PollLoop.writeCb,Send.step,Send.writeCb,window.running,window.dead,at_]

theorem Window.writable (window : Window s) (at_ : s.poll = .writable) : Doomed s := by
  apply ((window.moves .writeCb).writeCb rfl).back .testWrite rfl
  simp [step,window.running,window.callback,at_]

theorem Window.readCb (window : Window s) (at_ : s.poll = .readCb w) (later : Doomed {s with poll:=afterReadable w}) :
    Doomed s := by
  apply later.back (.readCb false) rfl
  simp [step,PollLoop.readCb,window.running,at_]

theorem Window.readable (window : Window s) (at_ : s.poll = .readable w)
    (later : Doomed {s with poll:=afterReadable w}) : Doomed s := by
  apply ((window.moves (.readCb w)).readCb rfl later).back .testRead rfl
  simp [step,window.running,window.callback,at_]

theorem Window.select (window : Window s) (at_ : s.poll = .select r w)
    (later : Doomed {s with poll:=afterReadable w}) : Doomed s := by
  apply later.back (.selected false w) rfl
  simp [step,window.running,at_]

theorem Window.waitReady (window : Window s) (watched : s.wfd = true) (at_ : s.poll = .waitReady) : Doomed s := by
  have selected : Doomed {s with poll:=.select s.rfd true} :=
    (window.moves _).select rfl ((window.moves .writable).writable rfl)
  apply selected.back .copy rfl
  simp [step,window.running,watched,at_]

theorem Window.top (window : Window s) (watched : s.wfd = true) (at_ : s.poll = .top) : Doomed s := by
  let next : State := {s with
    poll:=.waitReady
    pending:=false
    removal:=if s.pending then s.removal.signal else s.removal}
  have open_ : Window next := ⟨window.dead,window.running,window.callback⟩
  apply (open_.waitReady watched rfl).back .broadcast rfl
  simp [step,window.running,at_,next]

theorem Window.doomed (window : Window s) (exposed : Exposed s) : Doomed s := by
  have last : ∀ w, (s.wfd = true ∨ w = true) → Doomed {s with poll:=afterReadable w} := by
    intro w either
    cases w with
    | true => exact (window.moves .writable).writable rfl
    | false => exact (window.moves .top).top (either.resolve_right (by simp)) rfl
  cases at_ : s.poll with
  | top => exact window.top (exposed.resolve_right (by simp [at_,picked])) at_
  | waitReady => exact window.waitReady (exposed.resolve_right (by simp [at_,picked])) at_
  | select r w => exact window.select at_ (last w (exposed.imp_right (by simp [at_,picked])))
  | readable w => exact window.readable at_ (last w (exposed.imp_right (by simp [at_,picked])))
  | readCb w => exact window.readCb at_ (last w (exposed.imp_right (by simp [at_,picked])))
  | writable => exact window.writable at_
  | writeCb => exact window.writeCb at_

theorem Window.of_section (registered : Registered s) (alive : s.conn.dead = false) (gone : conn.dead = true)
    (running : conn.aborted = false) (k : Nat) :
    Window (afterSend s k conn) ∧ (afterSend s k conn).wfd = s.wfd ∧ (afterSend s k conn).poll = s.poll := by
  have set_ := (registered.listed alive).2
  unfold afterSend
  split
  · exact ⟨⟨gone,running,set_⟩,rfl,rfl⟩
  · exact ⟨⟨gone,running,set_⟩,rfl,rfl⟩

theorem kills_window (registered : Registered s) (running : s.conn.aborted = false) (kills : Kills s label)
    (taken : step s label = some s') : Window s' ∧ s'.wfd = s.wfd ∧ s'.poll = s.poll := by
  simp only [step,running,Bool.false_eq_true,if_false] at taken
  unfold Kills at kills
  split at kills
  · have set_ := (registered.listed kills).2
    simp only [others,kills,Send.step,running,Bool.false_eq_true,if_false,Option.map_some] at taken
    cases Option.some.inj taken
    exact ⟨⟨rfl,rfl,set_⟩,rfl,rfl⟩
  · rename_i b
    obtain ⟨conn,section_,rfl⟩ := Option.map_eq_some_iff.mp taken
    have still := (others_running section_ (by simp)).1.trans running
    simp only [Send.step,running,Bool.false_eq_true,if_false] at section_
    have gone : conn.dead = true := by
      refine takeTurn_fails ?_ ?_ section_
      · exact kills.1
      · exact kills.2
    exact Window.of_section registered kills.1 gone still _
  · rename_i k
    obtain ⟨conn,section_,rfl⟩ := Option.map_eq_some_iff.mp taken
    have still := (others_running section_ (by simp)).1.trans running
    simp only [Send.step,running,Bool.false_eq_true,if_false] at section_
    split at section_
    · cases section_
    · split at section_
      · exact Window.of_section registered kills.1 (takeTurn_fails kills.1 kills.2 section_) still _
      · cases section_
  · exact kills.elim

theorem step_safe (valid : Invariant s) (registered : Registered s) (taken : step s label = some s') :
    Safe s' ↔ Covered s label := by
  constructor
  · intro safe kills exposed
    obtain ⟨window,watched,at_⟩ := kills_window registered valid.running kills taken
    have still : Exposed s' := by rw [Exposed,watched,at_]; exact exposed
    exact (window.doomed still).not_safe safe
  · intro covered
    exact (step_invariant valid covered taken).safe

theorem write_cb_asserts_iff (path : Machine.Runs step Machine.free initial labels s) :
    (∀ earlier later mid, labels = earlier ++ later → Machine.Runs step Machine.free initial earlier mid → Safe mid) ↔
      Machine.Runs step Covered initial labels s := by
  apply path.throughout_iff Safe initial_invariant.safe
  intro earlier before label after _ reached _ taken _
  have valid : Invariant before ∧ Registered before := by
    apply reached.invariant ⟨initial_invariant,initial_registered⟩
    intro prior label next valid covered taken
    exact ⟨step_invariant valid.1 covered taken,step_registered valid.2 taken⟩
  exact step_safe valid.1 valid.2 taken

-- A PDU that goes out in two pieces. Its write callback outlives it.
def sent : List Label :=
  [.others (.send Send.hello (.wrote 5)),.broadcast,.copy,.selected false true,.testWrite,.writeCb (.wrote 19),
   .others (.wakeComplete 0),.broadcast,.copy]

-- closeconn after the next call of write_cb, which finds nothing to write.
def closedLater : List Label :=
  sent ++ [.selected false true,.testWrite,.writeCb .again,.others .closeconn,.unwatch,.broadcast,.wakes]

def closedInSelect : List Label := sent ++ [.others .closeconn,.selected false true,.testWrite,.writeCb .again]

theorem closed_later_asserts : ∃ s, Machine.Runs step Machine.free initial closedLater s ∧ s.conn.dead = true ∧
    s.callback = false ∧ Asserts s := by
  have ran : (Machine.exec (Machine.guarded step Covered) initial closedLater).map
      (fun s => (s.conn.dead,s.callback)) = some (true,false) := by decide +kernel
  obtain ⟨s,path,seen⟩ := Machine.guarded_observed ran
  have anyway := path.unrestricted
  have safe := (write_cb_asserts_iff anyway).mpr path _ [] s (by simp) anyway
  exact ⟨s,anyway,congrArg (·.1) seen,congrArg (·.2) seen,safe [] s (by simp) .nil⟩

theorem closed_in_select_aborts : ∃ s, Machine.Runs step Machine.free initial closedInSelect s ∧ ¬ Asserts s := by
  have ran : (Machine.exec step initial closedInSelect).map (fun s => s.conn.aborted) = some true := by decide +kernel
  obtain ⟨s,path,failed⟩ := Machine.exec_free_observed ran
  refine ⟨s,path,fun asserts => ?_⟩
  rw [asserts.2] at failed
  cases failed

end YfsLab.PollLoop
