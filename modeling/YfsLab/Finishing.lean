import YfsLab.Senders

namespace YfsLab.Finishing
open PollLoop Senders
open Wakeups (pcs Asleep pcs_setSender)

variable {s s' t : State} {conn : Send.State} {k : Nat}

-- The fd of a connection with a PDU on its way is watched for writing. Whoever
-- found its write failing is removing the fd, and a removal that nobody has
-- signalled is seen at the next broadcast.
structure Watches (s : State) : Prop where
  watched : s.conn.dead = false → s.conn.wpdu.buf ≠ none → s.wfd = true
  removed : .failing ∈ pcs s.conn → s.removal ≠ .none
  pending : s.removal = .waiting false → s.pending = true
  unwatched : ∀ signalled, s.removal = .waiting signalled → s.wfd = false
  called : s.wfd = true → s.callback = true

theorem initial_watches : Watches initial :=
  ⟨fun _ busy => absurd rfl busy,by simp [initial,Send.initial,pcs],by simp [initial],by simp [initial],by simp [initial]⟩

theorem Watches.dead (gone : s.conn.dead = true) (removed : .failing ∈ pcs s.conn → s.removal ≠ .none)
    (pending : s.removal = .waiting false → s.pending = true) (unwatched : ∀ signalled, s.removal = .waiting signalled → s.wfd = false)
    (called : s.wfd = true → s.callback = true) : Watches s :=
  ⟨fun alive => absurd alive (by simp [gone]),removed,pending,unwatched,called⟩

theorem Watches.with_conn (watches : Watches s) (dead : s.conn.dead = true → conn.dead = true)
    (buf : conn.wpdu.buf = s.conn.wpdu.buf ∨ conn.wpdu.buf = none) (failing : .failing ∈ pcs conn → .failing ∈ pcs s.conn) :
    Watches {s with conn:=conn} := by
  refine ⟨fun alive busy => ?_,fun member => watches.removed (failing member),watches.pending,watches.unwatched,watches.called⟩
  rcases buf with same | free
  · apply watches.watched ?_ (by rw [← same]; exact busy)
    by_contra gone
    rw [dead (by simpa using gone)] at alive
    cases alive
  · exact absurd free busy

theorem afterSend_conn (s : State) (k : Nat) (conn : Send.State) : (afterSend s k conn).conn = conn := by
  unfold PollLoop.afterSend
  split
  · split <;> rfl
  · rfl

theorem Watches.afterSend (watches : Watches s) (registered : Registered s) (dead : s.conn.dead = true → conn.dead = true)
    (buf : conn.wpdu.buf = s.conn.wpdu.buf ∨ conn.wpdu.buf = none ∨ conn.wpdu.buf = some k)
    (failing : .failing ∈ pcs conn →
      .failing ∈ pcs s.conn ∨ s.conn.dead = false ∧ conn.dead = true ∧ conn.wpdu.buf = some k) :
    Watches (afterSend s k conn) := by
  unfold PollLoop.afterSend
  split
  · rename_i owns
    split
    · rename_i gone
      exact .dead gone (by simp) (by simp) (by simp) watches.called
    · rename_i going
      refine ⟨fun _ _ => rfl,fun member => ?_,watches.pending,fun signalled waiting => ?_,fun _ => rfl⟩
      · rcases failing member with old | ⟨_,gone,_⟩
        · exact watches.removed old
        · exact absurd gone going
      · have waiting : s.removal = .waiting signalled := waiting
        have gone := registered.removed (by simp [waiting])
        rw [owns.1] at gone
        cases gone
  · rename_i other
    refine ⟨fun alive busy => ?_,fun member => ?_,watches.pending,watches.unwatched,watches.called⟩
    · have before : s.conn.dead = false := by
        by_contra gone
        rw [dead (by simpa using gone)] at alive
        cases alive
      rcases buf with same | free | own
      · exact watches.watched before (by rw [← same]; exact busy)
      · exact absurd free busy
      · exact absurd ⟨before,own⟩ other
    · rcases failing member with old | ⟨alive,_,own⟩
      · exact watches.removed old
      · exact absurd ⟨alive,own⟩ other

theorem Watches.of_dead (watches : Watches s) (gone : conn.dead = true) (failing : .failing ∈ pcs conn → .failing ∈ pcs s.conn)
    (poll : PollPc) : Watches {delBoth s with conn:=conn,poll:=poll} :=
  .dead gone (fun member => watches.removed (failing member)) watches.pending (fun _ _ => rfl) (by simp [delBoth])

theorem others_watches {label : Send.Label} (written : Send.Written s.conn full part) (watches : Watches s)
    (registered : Registered s) (taken : others s label = some s') : Watches s' := by
  have dead : ∀ {conn}, Send.step s.conn label = some conn → s.conn.dead = true → conn.dead = true :=
    fun section_ gone => (Send.step_dead gone section_).1
  cases label with
  | send b result =>
    obtain ⟨conn,section_,rfl⟩ := Option.map_eq_some_iff.mp taken
    cases Send.step_sound section_ with
    | send entered =>
      have joined := written.append b (s.conn.waiters+1)
      have last : (s.conn.senders ++ [⟨b,b.bytes,.waitTurn false⟩])[s.conn.senders.length]? =
          some ⟨b,b.bytes,.waitTurn false⟩ := by simp
      have buf := takeTurn_buf joined last rfl entered
      apply watches.afterSend registered (dead section_) buf
      intro failing
      have before := takeTurn_failing joined last rfl entered failing
      apply before.imp_left
      intro old
      simpa [pcs] using old
  | wakeTurn k result =>
    obtain ⟨conn,section_,rfl⟩ := Option.map_eq_some_iff.mp taken
    cases Send.step_sound section_ with
    | wakeTurn held pc entered =>
      exact watches.afterSend registered (dead section_) (takeTurn_buf written held pc entered)
        (takeTurn_failing written held pc entered)
  | wakeComplete k =>
    obtain ⟨conn,section_,rfl⟩ := Option.map_eq_some_iff.mp taken
    obtain ⟨sender,signalled,held,pc,⟨_,_,rfl⟩ | ⟨_,rfl⟩⟩ := wakeComplete_cases section_
    · apply watches.with_conn (dead section_) (.inl rfl)
      intro failing
      rw [pcs_setSender] at failing
      exact member_old (by simp) failing
    · exact watches.with_conn (dead section_) (.inr (by rw [finish_free]; rfl)) finish_failing
  | removed k =>
    obtain ⟨_,taken⟩ := Option.ite_none_right_eq_some.mp taken
    obtain ⟨conn,section_,rfl⟩ := Option.map_eq_some_iff.mp taken
    cases Send.step_sound section_ with
    | removed => exact watches.with_conn (dead section_) (.inr (by rw [finish_free]; rfl)) finish_failing
  | closeconn =>
    unfold others at taken
    dsimp only at taken
    split at taken
    · cases Option.some.inj taken; exact watches
    · obtain ⟨conn,section_,rfl⟩ := Option.map_eq_some_iff.mp taken
      cases Send.step_sound section_ with
      | closeconn => exact .dead rfl (by simp) (by simp) (by simp) watches.called
  | writeCb result => cases taken
  | readFails => cases taken

theorem writeCb_watches (written : Send.Written s.conn full part) (watches : Watches s)
    (taken : PollLoop.writeCb s result = some s') : Watches s' := by
  obtain ⟨conn,section_,rfl⟩ := Option.map_eq_some_iff.mp taken
  have dead : s.conn.dead = true → conn.dead = true := fun gone => (Send.step_dead gone section_).1
  cases Send.step_sound section_ with
  | writeCb called =>
    obtain ⟨buf,failing⟩ := writeCb_frame called
    have kept := watches.with_conn dead (.inl buf) failing
    split
    · exact kept
    · rename_i alive
      have alive : s.conn.dead = false := by simpa using alive
      split
      · rename_i empty
        refine ⟨fun _ busy => ?_,kept.removed,kept.pending,fun _ _ => rfl,by simp [delWrite]⟩
        obtain ⟨k,own⟩ := Option.ne_none_iff_exists'.mp busy
        exact absurd empty (written_sizes written alive (buf.symm.trans own)).2.2
      · split
        · rename_i gone; exact watches.of_dead gone failing .top
        · exact ⟨kept.watched,kept.removed,kept.pending,kept.unwatched,kept.called⟩

theorem readCb_watches (watches : Watches s) (taken : PollLoop.readCb s w fails = some s') : Watches s' := by
  unfold PollLoop.readCb at taken
  split at taken
  · rename_i failing
    obtain ⟨conn,section_,rfl⟩ := Option.map_eq_some_iff.mp taken
    cases Send.step_sound section_ with
    | readLate gone => rw [failing.1] at gone; cases gone
    | readFails =>
      apply watches.of_dead
      · rfl
      · exact signal_failing
  · cases Option.some.inj taken
    exact ⟨watches.watched,watches.removed,watches.pending,watches.unwatched,watches.called⟩

theorem signal_waiting {removal : Removal} (waiting : removal.signal = .waiting signalled) :
    signalled = true ∧ ∃ before, removal = .waiting before := by
  cases removal with
  | waiting before =>
    cases waiting
    exact ⟨rfl,before,rfl⟩
  | none | called | returned => cases waiting

theorem signal_called {removal : Removal} (called : removal ≠ .none) : removal.signal ≠ .none := by
  cases removal with
  | none => exact absurd rfl called
  | called | waiting | returned => simp [Removal.signal]

theorem step_watches (written : Send.Written s.conn full part) (watches : Watches s) (registered : Registered s)
    (taken : step s label = some s') : Watches s' := by
  cases (step_sound taken).2 with
  | others taken => exact others_watches written watches registered taken
  | unwatch called =>
    have gone := registered.removed (by simp [called])
    exact .dead gone (by simp) (fun _ => rfl) (fun _ _ => rfl) (by simp)
  | spurious =>
    refine ⟨watches.watched,fun member => signal_called (watches.removed member),fun waiting => ?_,fun _ waiting => ?_,watches.called⟩
    · cases (signal_waiting waiting).1
    · obtain ⟨_,before,was⟩ := signal_waiting waiting
      exact watches.unwatched before was
  | wakes called =>
    have gone := registered.removed (by simp [called])
    have unwatched := watches.unwatched true called
    exact .dead gone (by simp) (by simp) (by simp) (by simp [unwatched])
  | otherChange => exact ⟨watches.watched,watches.removed,fun _ => rfl,watches.unwatched,watches.called⟩
  | broadcast =>
    refine ⟨watches.watched,fun member => ?_,fun waiting => ?_,fun signalled waiting => ?_,watches.called⟩
    · dsimp only
      split
      · exact signal_called (watches.removed member)
      · exact watches.removed member
    · dsimp only at waiting
      split at waiting
      · cases (signal_waiting waiting).1
      · rename_i quiet
        exact absurd (watches.pending waiting) quiet
    · dsimp only at waiting
      split at waiting
      · obtain ⟨_,before,was⟩ := signal_waiting waiting
        exact watches.unwatched before was
      · exact watches.unwatched signalled waiting
  | copy | selected | testRead | testWrite =>
    exact ⟨watches.watched,watches.removed,watches.pending,watches.unwatched,watches.called⟩
  | readCb _ taken => exact readCb_watches watches taken
  | writeCb _ taken => exact writeCb_watches written watches taken

-- The critical section of send or of a callback that a step is.
def sectionOf : Label → Option Send.Label
  | .others label => some label
  | .readCb true => some .readFails
  | .writeCb result => some (.writeCb result)
  | _ => none

theorem conn_step (taken : step s label = some s') :
    s'.conn = s.conn ∨ ∃ went, sectionOf label = some went ∧ Send.step s.conn went = some s'.conn := by
  cases (step_sound taken).2 with
  | others taken =>
    unfold others at taken
    split at taken
    · obtain ⟨conn,went,rfl⟩ := Option.map_eq_some_iff.mp taken
      exact .inr ⟨_,rfl,by rw [afterSend_conn]; exact went⟩
    · obtain ⟨conn,went,rfl⟩ := Option.map_eq_some_iff.mp taken
      exact .inr ⟨_,rfl,by rw [afterSend_conn]; exact went⟩
    · obtain ⟨conn,went,rfl⟩ := Option.map_eq_some_iff.mp taken
      exact .inr ⟨_,rfl,went⟩
    · obtain ⟨_,taken⟩ := Option.ite_none_right_eq_some.mp taken
      obtain ⟨conn,went,rfl⟩ := Option.map_eq_some_iff.mp taken
      exact .inr ⟨_,rfl,went⟩
    · split at taken
      · cases Option.some.inj taken; exact .inl rfl
      · obtain ⟨conn,went,rfl⟩ := Option.map_eq_some_iff.mp taken
        exact .inr ⟨_,rfl,went⟩
    · cases taken
    · cases taken
  | readCb _ taken =>
    unfold PollLoop.readCb at taken
    split at taken
    · rename_i failing
      obtain ⟨conn,went,rfl⟩ := Option.map_eq_some_iff.mp taken
      exact .inr ⟨_,by rw [failing.2]; rfl,went⟩
    · cases Option.some.inj taken; exact .inl rfl
  | writeCb _ taken =>
    obtain ⟨conn,went,after⟩ := Option.map_eq_some_iff.mp taken
    have same : s'.conn = conn := by
      rw [← after]
      split
      · rfl
      · split
        · rfl
        · split <;> rfl
    exact .inr ⟨_,rfl,by rw [same]; exact went⟩
  | unwatch | spurious | wakes | otherChange | broadcast | copy | selected | testRead | testWrite => exact .inl rfl

structure Sound (s : State) : Prop where
  written : ∃ full part, Send.Written s.conn full part
  waits : Waits (pcs s.conn) s.conn
  running : s.conn.dead = false → s.conn.aborted = false
  registered : Registered s
  watches : Watches s

theorem initial_sound : Sound initial :=
  ⟨⟨[],[],Send.initial_written⟩,initial_waits,fun _ => rfl,initial_registered,initial_watches⟩

theorem section_running {section_ : Send.Label} (written : Send.Written s.conn full part) (running : s.conn.aborted = false)
    (went : Send.step s.conn section_ = some conn) (alive : conn.dead = false) : conn.aborted = false := by
  have before : s.conn.dead = false := by
    by_contra gone
    rw [(Send.step_dead (by simpa using gone) went).1] at alive
    cases alive
  cases section_ with
  | writeCb result =>
    cases Send.step_sound went with
    | writeCb called => exact (writeCb_running written before called).trans running
  | readFails => exact (readFails_running went).trans running
  | send | wakeTurn | wakeComplete | removed | closeconn => exact (others_running went (by simp)).1.trans running

theorem step_sounds (sound : Sound s) (taken : step s label = some s') : Sound s' := by
  obtain ⟨full,part,written⟩ := sound.written
  have registered := step_registered sound.registered taken
  have watches := step_watches written sound.watches sound.registered taken
  have running := (step_sound taken).1
  rcases conn_step taken with same | ⟨_,_,went⟩
  · exact ⟨by rw [same]; exact sound.written,by rw [same]; exact sound.waits,by rw [same]; exact sound.running,registered,watches⟩
  · exact ⟨Send.step_written written went,step_waits written sound.waits went,section_running written running went,registered,watches⟩

theorem runs_sound (path : Machine.Runs step ok initial labels s) : Sound s :=
  path.invariant initial_sound fun _ _ _ sound _ taken => step_sounds sound taken

-- A connection that is alive, or on which the poll thread cannot run into the
-- assertion of write_cb.
theorem Sound.invariant (sound : Sound s) (safe : s.conn.dead = true → Safe s) : Invariant s := by
  cases dead : s.conn.dead with
  | false =>
    exact ⟨sound.written,sound.running dead,by simp [dead],by simp [dead],fun _ => dead⟩
  | true =>
    have safe := safe dead
    have asserts := safe [] s (by simp) .nil
    have closed : ∀ callback : s.callback = true, ¬ Exposed s :=
      fun callback exposed => (Window.doomed ⟨dead,asserts.2,callback⟩ exposed).not_safe safe
    refine ⟨sound.written,asserts.2,fun _ => ?_,fun _ there => ?_,asserts.1⟩
    · by_contra watched
      have watched : s.wfd = true := by simpa using watched
      exact closed (sound.watches.called watched) (.inl watched)
    · by_contra set_
      exact closed (by simpa using set_) (.inr there)

-- No further sender comes, nothing fails, nobody closes the connection and no
-- thread wakes that was not signalled.
def Orderly (s : State) : Label → Prop
  | .others (.wakeTurn k result) => result ≠ .error ∧ (pcs s.conn)[k]? = some (.waitTurn true)
  | .others (.wakeComplete k) => (pcs s.conn)[k]? = some (.waitComplete true)
  | .readCb fails => fails = false
  | .writeCb result => result ≠ .error
  | .others (.removed _) | .unwatch | .wakes | .broadcast | .copy | .selected _ _ | .testRead | .testWrite => True
  | .others (.send _ _) | .others .closeconn | .others (.writeCb _) | .others .readFails | .spurious | .otherChange => False

theorem orderly_covered (orderly : Orderly s label) : Covered s label := by
  intro kills
  unfold Kills at kills
  split at kills
  · exact orderly.elim
  · exact orderly.elim
  · exact absurd rfl orderly.1
  · exact kills.elim

def Gentle : Send.Label → Prop
  | .wakeTurn _ result | .writeCb result => result ≠ .error
  | .wakeComplete _ | .removed _ => True
  | .send _ _ | .readFails | .closeconn => False

theorem orderly_gentle (orderly : Orderly s label) (which : sectionOf label = some went) : Gentle went := by
  unfold sectionOf at which
  split at which
  · cases Option.some.inj which
    unfold Orderly at orderly
    split at orderly <;> simp_all [Gentle]
  · cases orderly
  · cases Option.some.inj which
    exact orderly
  · cases which

theorem gentle_alive {conn conn' : Send.State} {went : Send.Label} (written : Send.Written conn full part)
    (alive : conn.dead = false) (gentle : Gentle went) (taken : Send.step conn went = some conn') : conn'.dead = false := by
  cases went with
  | writeCb result =>
    cases Send.step_sound taken with
    | writeCb called => exact writeCb_alive written alive gentle called
  | wakeTurn k result =>
    cases Send.step_sound taken with
    | wakeTurn _ _ entered =>
      by_contra gone
      rcases (takeTurn_running entered).2 (by simpa using gone) with before | ⟨_,failed⟩
      · rw [alive] at before; cases before
      · exact gentle failed
  | wakeComplete k =>
    obtain ⟨_,_,_,_,⟨_,_,rfl⟩ | ⟨_,rfl⟩⟩ := wakeComplete_cases taken
    · exact alive
    · exact (Send.finish_keeps _ _ _).1.trans alive
  | removed k =>
    cases Send.step_sound taken with
    | removed => exact (Send.finish_keeps _ _ _).1.trans alive
  | send | readFails | closeconn => exact gentle.elim

structure Valid (s : State) : Prop where
  sound : Sound s
  invariant : Invariant s
  awake : ¬ Asleep s.conn

theorem orderly_valid (valid : Valid s) (orderly : Orderly s label) (taken : step s label = some s') : Valid s' := by
  obtain ⟨full,part,written⟩ := valid.sound.written
  refine ⟨step_sounds valid.sound taken,step_invariant valid.invariant (orderly_covered orderly) taken,?_⟩
  rcases conn_step taken with same | ⟨section_,which,went⟩
  · rw [same]; exact valid.awake
  · have gentle := orderly_gentle orderly which
    apply (Wakeups.step_awake written valid.awake went).mpr
    cases section_ with
    | closeconn => exact gentle.elim
    | send | wakeTurn | wakeComplete | removed | writeCb | readFails => trivial

theorem orderly_dead (valid : Valid s) (orderly : Orderly s label) (taken : step s label = some s') :
    s'.conn.dead = s.conn.dead := by
  obtain ⟨full,part,written⟩ := valid.sound.written
  rcases conn_step taken with same | ⟨section_,which,went⟩
  · rw [same]
  · cases dead : s.conn.dead with
    | true => exact (Send.step_dead dead went).1
    | false => exact gentle_alive written dead (orderly_gentle orderly which) went

-- The poll thread's way to write_cb on a live connection whose fd is watched.
structure Ready (s : State) : Prop where
  alive : s.conn.dead = false
  running : s.conn.aborted = false
  callback : s.callback = true
  watched : s.wfd = true

def Calls (s : State) : Prop := Machine.Leads step Orderly s fun t => t.conn = s.conn ∧ t.poll = .writeCb

theorem Ready.moves (ready : Ready s) (poll : PollPc) : Ready {s with poll:=poll} :=
  ⟨ready.alive,ready.running,ready.callback,ready.watched⟩

theorem Ready.writable (ready : Ready s) (at_ : s.poll = .writable) : Calls s := by
  apply Machine.Leads.first .testWrite {s with poll:=.writeCb} trivial
  · simp [step,ready.running,ready.callback,at_]
  · exact .here ⟨rfl,rfl⟩

theorem Ready.select (ready : Ready s) (at_ : s.poll = .select r true) : Calls s := by
  apply Machine.Leads.first (.selected false true) {s with poll:=.writable} trivial
  · simp [step,ready.running,at_,afterReadable]
  · exact (ready.moves _).writable rfl

theorem Ready.waitReady (ready : Ready s) (at_ : s.poll = .waitReady) : Calls s := by
  apply Machine.Leads.first .copy {s with poll:=.select s.rfd true} trivial
  · simp [step,ready.running,ready.watched,at_]
  · exact (ready.moves _).select rfl

theorem Ready.top (ready : Ready s) (at_ : s.poll = .top) : Calls s := by
  let next : State := {s with
    poll:=.waitReady
    pending:=false
    removal:=if s.pending then s.removal.signal else s.removal}
  have still : Ready next := ⟨ready.alive,ready.running,ready.callback,ready.watched⟩
  apply Machine.Leads.first .broadcast next trivial
  · simp [step,ready.running,at_,next]
  · exact still.waitReady rfl

theorem Ready.afterReadable (ready : Ready s) (at_ : s.poll = afterReadable w) : Calls s := by
  cases w with
  | true => exact ready.writable at_
  | false => exact ready.top at_

theorem Ready.readCb (ready : Ready s) (at_ : s.poll = .readCb w) : Calls s := by
  apply Machine.Leads.first (.readCb false) {s with poll:=PollLoop.afterReadable w}
  · exact (rfl : Orderly s (.readCb false))
  · simp [step,PollLoop.readCb,ready.running,at_]
  · exact (ready.moves _).afterReadable rfl

theorem Ready.calls (ready : Ready s) : Calls s := by
  cases at_ : s.poll with
  | top => exact ready.top at_
  | waitReady => exact ready.waitReady at_
  | select r w =>
    apply Machine.Leads.first (.selected false w) {s with poll:=PollLoop.afterReadable w} trivial
    · simp [step,ready.running,at_]
    · exact (ready.moves _).afterReadable rfl
  | readable w =>
    apply Machine.Leads.first .testRead {s with poll:=.readCb w} trivial
    · simp [step,ready.running,ready.callback,at_]
    · exact (ready.moves _).readCb rfl
  | readCb w => exact ready.readCb at_
  | writable => exact ready.writable at_
  | writeCb => exact .here ⟨rfl,at_⟩

def Returns (s : State) : Prop := Machine.Leads step Orderly s fun t => t = {s with poll:=.top}

structure Barred (s : State) : Prop where
  running : s.conn.aborted = false
  uncalled : picked s.poll = true → s.callback = false
  outside : s.poll ≠ .writeCb

theorem Barred.top (at_ : s.poll = .top) : Returns s := .here (by rw [← at_])

theorem Barred.afterReadable (barred : Barred s) (at_ : s.poll = afterReadable w) : Returns s := by
  cases w with
  | false => exact Barred.top at_
  | true =>
    have unset := barred.uncalled (by rw [at_]; rfl)
    apply Machine.Leads.first .testWrite {s with poll:=.top} trivial
    · simp [step,barred.running,unset,show s.poll = .writable from at_]
    · exact .here rfl

theorem Barred.moves (barred : Barred s) (fewer : w = true → picked s.poll = true) : Barred {s with poll:=PollLoop.afterReadable w} :=
  ⟨barred.running,fun there => barred.uncalled (fewer (by rwa [picked_afterReadable] at there)),
    by cases w <;> simp [PollLoop.afterReadable]⟩

theorem Barred.readCb (barred : Barred s) (at_ : s.poll = .readCb w) : Returns s := by
  apply Machine.Leads.first (.readCb false) {s with poll:=PollLoop.afterReadable w}
  · exact (rfl : Orderly s (.readCb false))
  · simp [step,PollLoop.readCb,barred.running,at_]
  · exact (barred.moves (by simp [at_,picked])).afterReadable rfl

theorem Barred.returns (barred : Barred s) : Returns s := by
  have first : ∀ (label : Label) (poll : PollPc), Orderly s label → step s label = some {s with poll:=poll} →
      Returns {s with poll:=poll} → Returns s :=
    fun label poll orderly taken later => Machine.Leads.first label {s with poll:=poll} orderly taken later
  cases at_ : s.poll with
  | top => exact Barred.top at_
  | waitReady =>
    apply first .copy (.select s.rfd s.wfd) trivial
    · simp [step,barred.running,at_]
    · apply Machine.Leads.first (.selected false false) {s with poll:=.top} trivial
      · simp [step,barred.running,PollLoop.afterReadable]
      · exact .here rfl
  | select r w =>
    apply first (.selected false false) .top trivial
    · simp [step,barred.running,at_,PollLoop.afterReadable]
    · exact Barred.top rfl
  | readable w =>
    cases set_ : s.callback with
    | false =>
      apply first .testRead (PollLoop.afterReadable w) trivial
      · simp [step,barred.running,at_,set_]
      · exact (barred.moves (by simp [at_,picked])).afterReadable rfl
    | true =>
      apply first .testRead (.readCb w) trivial
      · simp [step,barred.running,at_,set_]
      · have reading : Barred {s with poll:=.readCb w} :=
          ⟨barred.running,fun there => barred.uncalled (by rw [at_]; exact there),by simp⟩
        exact reading.readCb rfl
  | readCb w => exact barred.readCb at_
  | writable => exact barred.afterReadable (w:=true) at_
  | writeCb => exact absurd at_ barred.outside

def unfinished (s : State) : Nat := (pcs s.conn).countP inside

def Finishes (s : State) : Prop := Machine.Leads step Orderly s fun t => unfinished t < unfinished s

theorem finish_lowers {sender : Send.Sender} (held : s.conn.senders[k]? = some sender) (left : inside sender.pc = true) :
    unfinished {s with conn:=Send.finish s.conn k sender} < unfinished s := by
  have fewer := finish_count held left
  simp only [unfinished]
  omega

theorem complete_finishes (running : s.conn.aborted = false) (there : (pcs s.conn)[k]? = some (.waitComplete true))
    (ended : s.conn.dead = true ∨ s.conn.wpdu.solong = s.conn.wpdu.sz) : Finishes s := by
  obtain ⟨sender,held,pc⟩ := placed there
  apply Machine.Leads.first (.others (.wakeComplete k)) {s with conn:=Send.finish s.conn k sender}
  · exact there
  · have ended_ : ¬ (s.conn.dead = false ∧ 0 ≤ s.conn.wpdu.solong ∧ s.conn.wpdu.solong < s.conn.wpdu.sz) := by
      rintro ⟨alive,_,short⟩
      rcases ended with gone | complete
      · rw [alive] at gone; cases gone
      · omega
    simp only [step,others,Send.step,running,held,pc,Bool.false_eq_true,if_false,if_neg ended_,Option.map_some]
  · exact .here (finish_lowers held (by rw [pc]; rfl))

theorem alive_finishes (valid : Valid s) (alive : s.conn.dead = false) (own : s.conn.wpdu.buf = some k) : Finishes s := by
  obtain ⟨full,part,written⟩ := valid.sound.written
  have running := valid.invariant.running
  have ready : Ready s := ⟨alive,running,(valid.sound.registered.listed alive).2,
    valid.sound.watches.watched alive (by simp [own])⟩
  obtain ⟨_,sender,held,_⟩ := written.busy k own
  have stands : ∃ signalled, (pcs s.conn)[k]? = some (.waitComplete signalled) := by
    have holds := (written.owner k sender held).mpr own
    cases pc : sender.pc with
    | waitComplete signalled => exact ⟨signalled,(place held).trans (by rw [pc])⟩
    | failing =>
      have gone := written.failing k sender held pc
      rw [alive] at gone; cases gone
    | waitTurn | returned => rw [pc] at holds; cases holds
  obtain ⟨signalled,there⟩ := stands
  obtain ⟨conn,wrote,still,complete,places⟩ := writeCb_all written alive own
  apply ready.calls.trans
  rintro calling ⟨same,at_⟩
  have sized := (written_sizes written alive own).2.2
  apply Machine.Leads.first (.writeCb (.wrote (s.conn.wpdu.sz - s.conn.wpdu.solong).toNat)) {calling with conn:=conn,poll:=.top}
  · simp [Orderly]
  · simp only [step,PollLoop.writeCb,Send.step,same,running,at_,wrote,alive,still,if_neg sized,Bool.false_eq_true,if_false,if_true,
      Option.map_some]
  · have fewer : unfinished {calling with conn:=conn,poll:=.top} = unfinished s := by
      simp only [unfinished,places,List.countP_map]
      congr 1
      funext pc
      exact inside_completed pc
    have signalled_ : (pcs conn)[k]? = some (.waitComplete true) := by
      rw [places,List.getElem?_map,there]
      rfl
    have last : Finishes {calling with conn:=conn,poll:=.top} :=
      complete_finishes ((writeCb_running written alive wrote).trans running) signalled_ (.inr complete)
    rw [Finishes,fewer] at last
    exact last

-- The sender whose write has failed, from the end of block_remove_fd backwards.
section Removing
variable (running : s.conn.aborted = false) (there : (pcs s.conn)[k]? = some .failing)
include running there

theorem returned_finishes (returned : s.removal = .returned) : Finishes s := by
  obtain ⟨sender,held,pc⟩ := placed there
  apply Machine.Leads.first (.others (.removed k)) {s with conn:=Send.finish s.conn k sender} trivial
  · simp [step,others,Send.step,running,held,pc,returned]
  · exact .here (finish_lowers held (by rw [pc]; rfl))

theorem woken_finishes (woken : s.removal = .waiting true) : Finishes s := by
  let next : State := {s with callback:=false,removal:=.returned}
  apply Machine.Leads.first .wakes next trivial
  · simp [step,running,woken,next]
  · have last : Finishes next := returned_finishes running there rfl
    exact last

theorem broadcast_finishes (waiting : s.removal = .waiting false) (pending : s.pending = true) (at_ : s.poll = .top) :
    Finishes s := by
  let next : State := {s with poll:=.waitReady,pending:=false,removal:=.waiting true}
  apply Machine.Leads.first .broadcast next trivial
  · simp [step,running,at_,pending,waiting,Removal.signal,next]
  · have last : Finishes next := woken_finishes running there rfl
    exact last

theorem waiting_finishes (barred : Barred s) (waiting : s.removal = .waiting false) (pending : s.pending = true) :
    Finishes s := by
  apply barred.returns.trans
  rintro _ rfl
  have last : Finishes {s with poll:=.top} := broadcast_finishes running there waiting pending rfl
  exact last

theorem called_finishes (barred : Barred s) (called : s.removal = .called) : Finishes s := by
  let next : State := {s with rfd:=false,wfd:=false,pending:=true,removal:=.waiting false}
  apply Machine.Leads.first .unwatch next trivial
  · simp [step,running,called,next]
  · have still : Barred next := ⟨barred.running,barred.uncalled,barred.outside⟩
    have last : Finishes next := waiting_finishes running there still rfl rfl
    exact last

end Removing

theorem dead_finishes (valid : Valid s) (dead : s.conn.dead = true) (own : s.conn.wpdu.buf = some k) : Finishes s := by
  obtain ⟨full,part,written⟩ := valid.sound.written
  have running := valid.invariant.running
  have barred : Barred s := ⟨running,valid.invariant.uncalled dead,fun entering => by
    rw [valid.invariant.alive entering] at dead; cases dead⟩
  obtain ⟨_,sender,held,_⟩ := written.busy k own
  have stands := place held
  have holds := (written.owner k sender held).mpr own
  cases pc : sender.pc with
  | waitComplete signalled =>
    rw [pc] at stands
    cases signalled with
    | true => exact complete_finishes running stands (.inl dead)
    | false => exact absurd ⟨dead,List.mem_of_getElem? stands⟩ valid.awake
  | failing =>
    rw [pc] at stands
    have removing := valid.sound.watches.removed (List.mem_of_getElem? stands)
    cases removal : s.removal with
    | none => exact absurd removal removing
    | called => exact called_finishes running stands barred removal
    | returned => exact returned_finishes running stands removal
    | waiting signalled =>
      cases signalled with
      | true => exact woken_finishes running stands removal
      | false => exact waiting_finishes running stands barred removal (valid.sound.watches.pending removal)
  | waitTurn | returned => rw [pc] at holds; cases holds

theorem waiter_finishes (valid : Valid s) (free : s.conn.wpdu.buf = none)
    (there : (pcs s.conn)[k]? = some (.waitTurn signalled)) : Finishes s := by
  have running := valid.invariant.running
  have woken : signalled = true := by
    cases signalled with
    | true => rfl
    | false => exact absurd free (valid.sound.waits.turn (List.mem_of_getElem? there))
  subst woken
  obtain ⟨sender,held,pc⟩ := placed there
  obtain ⟨conn,entered,fewer⟩ := takes_turn held pc free
  apply Machine.Leads.first (.others (.wakeTurn k (.wrote sender.b.bytes.length))) (afterSend s k conn)
  · exact ⟨by simp,there⟩
  · simp only [step,others,Send.step,running,held,pc,entered,Bool.false_eq_true,if_false,Option.map_some]
  · apply Machine.Leads.here
    simp only [unfinished,afterSend_conn]
    omega

theorem Valid.finishes (valid : Valid s) (remain : 0 < unfinished s) : Finishes s := by
  obtain ⟨full,part,written⟩ := valid.sound.written
  cases own : s.conn.wpdu.buf with
  | some k =>
    cases dead : s.conn.dead with
    | true => exact dead_finishes valid dead own
    | false => exact alive_finishes valid dead own
  | none =>
    obtain ⟨pc,member,counted⟩ := List.countP_pos_iff.mp remain
    obtain ⟨k,there⟩ := List.mem_iff_getElem?.mp member
    cases pc with
    | waitTurn signalled => exact waiter_finishes valid own there
    | returned => cases counted
    | waitComplete | failing =>
      obtain ⟨sender,held,pc⟩ := placed there
      have owner := (written.owner k sender held).mp (by rw [pc]; rfl)
      rw [own] at owner
      cases owner

theorem Valid.drains (valid : Valid s) : Machine.Leads step Orderly s fun t =>
    (Valid t ∧ t.conn.dead = s.conn.dead) ∧ unfinished t = 0 := by
  apply Machine.Leads.drain unfinished ⟨valid,rfl⟩
  rintro state ⟨still,same⟩ remain
  apply (still.finishes remain).keeping ⟨still,same⟩
  rintro before label after ⟨earlier,equal⟩ orderly taken
  exact ⟨orderly_valid earlier orderly taken,(orderly_dead earlier orderly taken).trans equal⟩

theorem orderly_buffers (orderly : Orderly s label) (taken : step s label = some s') :
    buffers s'.conn = buffers s.conn := by
  rcases conn_step taken with same | ⟨section_,which,went⟩
  · rw [same]
  · have gentle := orderly_gentle orderly which
    apply step_buffers ?_ went
    rintro b result rfl
    exact gentle.elim

theorem sectionOf_wakes (which : sectionOf label = some (.wakeComplete k)) : label = .others (.wakeComplete k) := by
  unfold sectionOf at which
  split at which
  · cases Option.some.inj which; rfl
  · cases which
  · cases which
  · cases which

theorem orderly_asleep (orderly : Orderly s label) (taken : step s label = some s') (dead : s.conn.dead = true)
    (there : (pcs s.conn)[k]? = some (.waitComplete false)) :
    s'.conn.dead = true ∧ (pcs s'.conn)[k]? = some (.waitComplete false) := by
  rcases conn_step taken with same | ⟨section_,which,went⟩
  · rw [same]; exact ⟨dead,there⟩
  · refine ⟨(Send.step_dead dead went).1,?_⟩
    have left : ∀ {j : Nat} {sender : Send.Sender} (pc : Send.Pc), s.conn.senders[j]? = some sender →
        sender.pc ≠ .waitComplete false → ((pcs s.conn).set j pc)[k]? = some (.waitComplete false) := by
      intro j sender pc held awake
      apply (Machine.entry_other ?_).trans there
      rintro rfl
      exact awake (Option.some.inj ((place held).symm.trans there))
    have finished : ∀ {j : Nat} {sender : Send.Sender}, s.conn.senders[j]? = some sender →
        sender.pc ≠ .waitComplete false → (pcs (Send.finish s.conn j sender))[k]? = some (.waitComplete false) := by
      intro j sender held awake
      rw [pcs_finish,List.getElem?_map,left _ held awake]
      split <;> rfl
    have gentle := orderly_gentle orderly which
    generalize s'.conn = conn at went
    cases section_ with
    | wakeTurn j result =>
      cases Send.step_sound went with
      | wakeTurn held pc entered =>
        rw [takeTurn_gone dead entered]
        exact left _ held (by simp [pc])
    | wakeComplete j =>
      obtain ⟨sender,signalled,held,pc,⟨alive,_⟩ | ⟨_,after⟩⟩ := wakeComplete_cases went
      · rw [dead] at alive; cases alive
      · rw [after]
        apply finished held
        rw [sectionOf_wakes which] at orderly
        have signalled := (place held).symm.trans orderly
        simp [Option.some.inj signalled]
    | removed j =>
      cases Send.step_sound went with
      | removed held pc => exact finished held (by simp [pc])
    | writeCb result =>
      cases Send.step_sound went with
      | writeCb called =>
        simp only [Send.writeCb,dead,if_true] at called
        cases Option.some.inj called
        exact there
    | send | readFails | closeconn => exact gentle.elim

theorem all_returned (left : unfinished t = 0) : ∀ sender ∈ t.conn.senders, ∃ ret, sender.pc = .returned ret := by
  intro sender member
  have outside := List.countP_eq_zero.mp left _ (List.mem_map_of_mem member)
  cases pc : sender.pc with
  | returned ret => exact ⟨ret,rfl⟩
  | waitTurn | waitComplete | failing => simp [pc,inside] at outside

-- In every state of every run, with no spurious wakeups and no further errors:
-- the senders that are still in send can all return exactly if none of them
-- sleeps on a dead connection, and on a live one they all return true and the
-- PDUs of all senders are on the wire. If the connection is dead, the poll
-- thread must not be on its way into the assertion of write_cb.
theorem senders_finish_iff (path : Machine.Runs step Machine.free initial labels s) (safe : s.conn.dead = true → Safe s) :
    ((∃ more t, Machine.Runs step Orderly s more t ∧ ∀ sender ∈ t.conn.senders, ∃ ret, sender.pc = .returned ret) ↔
      ¬ Asleep s.conn) ∧
    (s.conn.dead = false → ∃ more t, Machine.Runs step Orderly s more t ∧
      (∀ sender ∈ t.conn.senders, sender.pc = .returned true) ∧
      ∃ order : List Nat, order.Perm (List.range s.conn.senders.length) ∧
        t.conn.wire = order.flatMap (Send.frameAt s.conn.senders)) := by
  have sound := runs_sound path
  have invariant := sound.invariant safe
  refine ⟨⟨?_,fun awake => ?_⟩,fun alive => ?_⟩
  · rintro ⟨more,t,onward,returned⟩ ⟨dead,parked⟩
    obtain ⟨k,there⟩ := List.mem_iff_getElem?.mp parked
    have still : t.conn.dead = true ∧ (pcs t.conn)[k]? = some (.waitComplete false) := by
      apply onward.invariant ⟨dead,there⟩
      rintro before label after ⟨gone,sleeps⟩ orderly taken
      exact orderly_asleep orderly taken gone sleeps
    obtain ⟨sender,held,pc⟩ := placed still.2
    obtain ⟨ret,left⟩ := returned sender (List.mem_of_getElem? held)
    rw [pc] at left
    cases left
  · have valid : Valid s := ⟨sound,invariant,awake⟩
    obtain ⟨more,t,onward,_,left⟩ := valid.drains
    exact ⟨more,t,onward,all_returned left⟩
  · have valid : Valid s := ⟨sound,invariant,Wakeups.alive_awake alive⟩
    obtain ⟨more,t,onward,⟨final,same⟩,left⟩ := valid.drains
    have kept : buffers t.conn = buffers s.conn := by
      apply onward.invariant
      · rfl
      · intro before label after earlier orderly taken
        exact (orderly_buffers orderly taken).trans earlier
    obtain ⟨full,part,written⟩ := final.sound.written
    obtain ⟨returned,perm,wire⟩ := all_written written final.sound.waits (same.trans alive) left
    have size : t.conn.senders.length = s.conn.senders.length := by
      have sizes := congrArg List.length kept
      simpa [buffers] using sizes
    refine ⟨more,t,onward,returned,full,by rw [← size]; exact perm,?_⟩
    rw [wire,frameAt_buffers kept]

-- A sender whose PDU has gone out in part, and one that waits for its turn.
def twoWaiting : List Label := [.others (.send Send.hello (.wrote 5)),.others (.send Send.world .again)]

theorem two_waiting_finish : ∃ s, Machine.Runs step Machine.free initial twoWaiting s ∧
    pcs s.conn = [.waitComplete false,.waitTurn false] ∧ ∃ more t, Machine.Runs step Orderly s more t ∧
      (∀ sender ∈ t.conn.senders, sender.pc = .returned true) ∧
      ∃ order : List Nat, order.Perm (List.range s.conn.senders.length) ∧
        t.conn.wire = order.flatMap (Send.frameAt s.conn.senders) := by
  have ran : (Machine.exec step initial twoWaiting).map (fun s => (s.conn.dead,pcs s.conn)) =
      some (false,[.waitComplete false,.waitTurn false]) := by decide +kernel
  obtain ⟨s,path,seen⟩ := Machine.exec_free_observed ran
  obtain ⟨alive,places⟩ := Prod.mk.inj seen
  have finishes := senders_finish_iff path fun gone => by rw [alive] at gone; cases gone
  exact ⟨s,path,places,finishes.2 alive⟩

end YfsLab.Finishing
