import YfsLab.Receive

namespace YfsLab.ReadPdu
open Receive

-- readpdu up to its second read: it has returned, or makes that read in `s`.
inductive Front where
  | returns (succ : Bool) (s : State)
  | reads (s : State)
  deriving DecidableEq, Repr

def beginPdu (s : State) (sz1 : List UInt8) : Front :=
  if ntohl sz1 > maxPdu then .returns false s
  else if s.rpdu.buf.isSome ∨ mallocSize (ntohl sz1) ≥ 2^63 then
    .returns false {s with rpdu:={s.rpdu with sz:=ntohl sz1},aborted:=true}
  else .reads {s with rpdu:=⟨some sz1,mallocSize (ntohl sz1),ntohl sz1,rpcSzSize⟩}

def front (s : State) (first : ReadResult) : Option Front :=
  if s.rpdu.sz = 0 then
    match first with
    | .eof => some (.returns false s)
    | .error errno => some (.returns false {s with errno:=errno,aborted:=decide (errno = .EAGAIN)})
    | .data n =>
      if 0 < n ∧ n ≤ rpcSzSize ∧ n ≤ s.stream.length then
        if n ≠ rpcSzSize then some (.returns false {s with stream:=s.stream.drop n})
        else some (beginPdu {s with stream:=s.stream.drop n} (s.stream.take n))
      else none
  else some (.reads s)

def Front.finish (second : ReadResult) : Front → Option (Bool × State)
  | .returns succ s => some (succ,s)
  | .reads s => readBody s second

def requested (s : State) : Int := s.rpdu.sz - s.rpdu.solong

variable {s t after begun : State} {first second : ReadResult} {accepts succ : Bool}

theorem newPdu_front (s : State) (sz1 : List UInt8) (second : ReadResult) :
    newPdu s sz1 second = (beginPdu s sz1).finish second := by
  unfold newPdu beginPdu
  split
  · rfl
  · split <;> rfl

theorem readpdu_front (s : State) (first second : ReadResult) :
    readpdu s first second = (front s first).bind (Front.finish second) := by
  unfold readpdu front
  split
  · cases first with
    | eof => rfl
    | error errno => rfl
    | data n =>
      dsimp only
      split
      · split
        · rfl
        · exact newPdu_front _ _ _
      · rfl
  · rfl

def Reads (s : State) : Prop := s.dead = false ∧ (s.rpdu.buf = none ∨ s.rpdu.solong < s.rpdu.sz)

inductive Called (s : State) (first second : ReadResult) (accepts : Bool) (after : State) : Prop where
  | dead : s.dead = true → after = s → Called s first second accepts after
  | full : ¬ Reads s → after = offer s accepts → Called s first second accepts after
  | aborted : Reads s → front s first = some (.returns false after) → after.aborted = true →
      Called s first second accepts after
  | returned (stopped : State) : Reads s → front s first = some (.returns false stopped) →
      stopped.aborted = false → after = offer (settle false stopped) accepts → Called s first second accepts after
  | read (begun : State) (succ : Bool) (t : State) : Reads s → front s first = some (.reads begun) →
      readBody begun second = some (succ,t) → after = offer (settle succ t) accepts →
      Called s first second accepts after

theorem beginPdu_returns (result : beginPdu s sz1 = .returns succ t) : succ = false := by
  unfold beginPdu at result
  split at result
  · cases result; rfl
  · split at result
    · cases result; rfl
    · cases result

theorem beginPdu_running (result : beginPdu s sz1 = .reads begun) :
    begun.aborted = s.aborted ∧ begun.errno = s.errno ∧ begun.dead = s.dead := by
  unfold beginPdu at result
  split at result
  · cases result
  · split at result
    · cases result
    · cases result; exact ⟨rfl,rfl,rfl⟩

theorem front_cases (result : front s first = some next) :
    (s.rpdu.sz ≠ 0 ∧ next = .reads s) ∨
    (s.rpdu.sz = 0 ∧ first ≠ .data rpcSzSize ∧ ∃ t, next = .returns false t ∧ t.rpdu = s.rpdu) ∨
    (s.rpdu.sz = 0 ∧ first = .data rpcSzSize ∧
      next = beginPdu {s with stream:=s.stream.drop rpcSzSize} (s.stream.take rpcSzSize)) := by
  unfold front at result
  split at result
  · rename_i zero
    cases first with
    | eof => cases result; exact .inr (.inl ⟨zero,by simp,_,rfl,rfl⟩)
    | error errno => cases result; exact .inr (.inl ⟨zero,by simp,_,rfl,rfl⟩)
    | data n =>
      dsimp only at result
      obtain ⟨_,result⟩ := Option.ite_none_right_eq_some.mp result
      split at result
      · rename_i short
        cases result
        exact .inr (.inl ⟨zero,by simpa using short,_,rfl,rfl⟩)
      · rename_i whole
        cases Classical.byContradiction whole
        exact .inr (.inr ⟨zero,rfl,(Option.some.inj result).symm⟩)
  · rename_i started
    cases result
    exact .inl ⟨started,rfl⟩

theorem front_returns (result : front s first = some (.returns succ t)) : succ = false := by
  rcases front_cases result with ⟨_,same⟩ | ⟨_,_,_,same,_⟩ | ⟨_,_,same⟩
  · cases same
  · cases same; rfl
  · exact beginPdu_returns same.symm

theorem front_running (result : front s first = some (.reads begun)) :
    begun.aborted = s.aborted ∧ begun.errno = s.errno ∧ begun.dead = s.dead := by
  rcases front_cases result with ⟨_,same⟩ | ⟨_,_,_,same,_⟩ | ⟨_,_,same⟩
  · cases same; exact ⟨rfl,rfl,rfl⟩
  · cases same
  · have kept := beginPdu_running same.symm
    exact kept

theorem readBody_running (read : readBody s second = some (succ,t)) : t.aborted = s.aborted ∧ t.dead = s.dead := by
  cases second with
  | data n =>
    simp only [readBody] at read
    obtain ⟨_,read⟩ := Option.ite_none_right_eq_some.mp read
    cases read
    exact ⟨rfl,rfl⟩
  | eof =>
    simp only [readBody] at read
    split at read <;> cases read <;> exact ⟨rfl,rfl⟩
  | error errno =>
    simp only [readBody] at read
    split at read <;> cases read <;> exact ⟨rfl,rfl⟩

theorem step_called (taken : step s (.readCb first second accepts) = some after) :
    s.aborted = false ∧ Called s first second accepts after := by
  obtain ⟨running,taken⟩ := Option.ite_none_left_eq_some.mp taken
  have running : s.aborted = false := by simpa using running
  refine ⟨running,?_⟩
  dsimp only [readCb] at taken
  split at taken
  · rename_i dead
    cases Option.some.inj taken
    exact .dead dead rfl
  · rename_i alive
    have alive : s.dead = false := by simpa using alive
    split at taken
    · rename_i more
      obtain ⟨⟨succ,t⟩,read,rfl⟩ := Option.map_eq_some_iff.mp taken
      rw [readpdu_front] at read
      obtain ⟨result,begins,finished⟩ := Option.bind_eq_some_iff.mp read
      cases result with
      | returns first' stopped =>
        cases front_returns begins
        cases finished
        dsimp only
        split
        · rename_i aborted; exact .aborted ⟨alive,more⟩ begins aborted
        · rename_i running; exact .returned _ ⟨alive,more⟩ begins (by simpa using running) rfl
      | reads begun =>
        have still : t.aborted = false :=
          (readBody_running finished).1.trans ((front_running begins).1.trans running)
        refine .read begun succ t ⟨alive,more⟩ begins finished ?_
        simp [still]
    · rename_i full
      cases Option.some.inj taken
      exact .full (fun reads => full reads.2) rfl

-- A PDU that is being read: the cursor is between the size field and the end
-- that the size names, and the buffer reaches that far.
def Kept (pdu : Charbuf) : Prop :=
  pdu.buf ≠ none ∧ rpcSzSize ≤ pdu.solong ∧ pdu.solong ≤ pdu.sz ∧ pdu.sz ≤ maxPdu ∧ pdu.sz ≤ pdu.cap

def Sound (pdu : Charbuf) : Prop := pdu = .null ∨ Kept pdu

def Received (s : State) (first : ReadResult) (size : Int) : Prop :=
  Reads s ∧ s.rpdu.sz = 0 ∧ first = .data rpcSzSize ∧ size = ntohl (s.stream.take rpcSzSize)

structure SafeCb (s : State) (first : ReadResult) (after : State) : Prop where
  decided : ∀ size, Received s first size →
    (∃ stopped, front s first = some (.returns false stopped) ∧ after.dead = true) ∨
    ∃ begun, front s first = some (.reads begun) ∧ begun.rpdu.sz = size ∧ Kept begun.rpdu
  requests : ∀ begun, Reads s → front s first = some (.reads begun) → Kept begun.rpdu ∧ 0 ≤ requested begun
  unclaimed : ∀ size, Received s first size → s.rpdu.buf = none
  keeps : Sound after.rpdu

def Safe (s : State) : Label → Prop
  | .readCb first second accepts => ∀ after, step s (.readCb first second accepts) = some after → SafeCb s first after
  | label => ∀ after, step s label = some after → Sound after.rpdu

def LargeSize (s : State) : Label → Prop
  | .readCb first _ _ => ∀ size, Received s first size → rpcSzSize ≤ size
  | _ => True

theorem Received.front_begins (received : Received s first size) (result : front s first = some next) :
    next = beginPdu {s with stream:=s.stream.drop rpcSzSize} (s.stream.take rpcSzSize) := by
  obtain ⟨_,zero,whole,_⟩ := received
  rcases front_cases result with ⟨started,_⟩ | ⟨_,short,_⟩ | ⟨_,_,same⟩
  · exact absurd zero started
  · exact absurd whole short
  · exact same

theorem beginPdu_kept (large : rpcSzSize ≤ ntohl sz1) (result : beginPdu s sz1 = .reads begun) :
    begun.rpdu.sz = ntohl sz1 ∧ Kept begun.rpdu := by
  unfold beginPdu at result
  split at result
  · cases result
  · rename_i bounded
    split at result
    · cases result
    · cases result
      refine ⟨rfl,by simp,Int.le_refl _,large,by simpa using bounded,?_⟩
      simp only [maxPdu,rpcSzSize,mallocSize] at bounded large ⊢
      omega

theorem beginPdu_rejects (result : beginPdu s sz1 = .returns succ t) (large : rpcSzSize ≤ ntohl sz1)
    (free : s.rpdu.buf = none) : t = s := by
  unfold beginPdu at result
  split at result
  · cases result; rfl
  · rename_i bounded
    have allocated : ¬ (s.rpdu.buf.isSome ∨ mallocSize (ntohl sz1) ≥ 2^63) := by
      rw [free]
      simp only [maxPdu,rpcSzSize,mallocSize] at bounded large ⊢
      simp
      omega
    rw [if_neg allocated] at result
    cases result

-- A size below four is neither rejected nor read as it should be: malloc fails
-- and the assertion stops the program, or the cursor starts behind the end.
theorem beginPdu_small (small : ntohl sz1 < rpcSzSize) :
    (∃ t, beginPdu s sz1 = .returns false t ∧ t.aborted = true ∧ t.dead = s.dead) ∨
      ∃ begun, beginPdu s sz1 = .reads begun ∧ ¬ Kept begun.rpdu := by
  have bounded : ¬ ntohl sz1 > maxPdu := by
    simp only [maxPdu,rpcSzSize] at small ⊢
    omega
  unfold beginPdu
  rw [if_neg bounded]
  split
  · exact .inl ⟨_,rfl,rfl,rfl⟩
  · refine .inr ⟨_,rfl,?_⟩
    intro kept
    have order : (rpcSzSize : Int) ≤ ntohl sz1 := kept.2.2.1
    omega

theorem Sound.between (sound : Sound pdu) (size : pdu.sz = 0) : pdu = .null := by
  rcases sound with null | kept
  · exact null
  · obtain ⟨_,low,high,_⟩ := kept
    simp only [rpcSzSize] at low
    omega

theorem Sound.reading (sound : Sound pdu) (size : pdu.sz ≠ 0) : Kept pdu := by
  rcases sound with null | kept
  · exact absurd (by rw [null]; rfl) size
  · exact kept

theorem readBody_sound (kept : Kept s.rpdu) (read : readBody s second = some (succ,t)) : Sound t.rpdu := by
  cases second with
  | data n =>
    simp only [readBody] at read
    obtain ⟨there,read⟩ := Option.ite_none_right_eq_some.mp read
    cases read
    obtain ⟨buf,low,high,bounded,room⟩ := kept
    exact .inr ⟨by simpa using buf,by dsimp only; omega,by dsimp only; omega,bounded,room⟩
  | eof =>
    simp only [readBody] at read
    split at read <;> cases read
    · exact .inr kept
    · exact .inl rfl
  | error errno =>
    simp only [readBody] at read
    split at read <;> cases read
    · exact .inr kept
    · exact .inl rfl

theorem settle_rpdu (succ : Bool) (s : State) : (settle succ s).rpdu = s.rpdu := by
  unfold settle
  split <;> rfl

theorem offer_sound (sound : Sound s.rpdu) : Sound (offer s accepts).rpdu := by
  unfold offer
  split
  · exact sound
  · split
    · exact .inl rfl
    · exact sound

theorem front_kept (sound : Sound s.rpdu) (reads : Reads s) (large : ∀ size, Received s first size → rpcSzSize ≤ size)
    (result : front s first = some (.reads begun)) : Kept begun.rpdu := by
  rcases front_cases result with ⟨started,same⟩ | ⟨_,_,_,same,_⟩ | ⟨zero,whole,same⟩
  · cases same
    exact sound.reading started
  · cases same
  · exact (beginPdu_kept (large _ ⟨reads,zero,whole,rfl⟩) same.symm).2

theorem front_stops (sound : Sound s.rpdu) (reads : Reads s) (large : ∀ size, Received s first size → rpcSzSize ≤ size)
    (result : front s first = some (.returns succ t)) : t.rpdu = s.rpdu := by
  rcases front_cases result with ⟨_,same⟩ | ⟨_,_,_,same,kept⟩ | ⟨zero,whole,same⟩
  · cases same
  · cases same; exact kept
  · have free : s.rpdu.buf = none := by rw [sound.between zero]; rfl
    rw [beginPdu_rejects same.symm (large _ ⟨reads,zero,whole,rfl⟩) free]

theorem called_sound (sound : Sound s.rpdu) (large : ∀ size, Received s first size → rpcSzSize ≤ size)
    (called : Called s first second accepts after) : Sound after.rpdu := by
  cases called with
  | dead _ same => exact same ▸ sound
  | full _ same => exact same ▸ offer_sound sound
  | aborted reads result _ => exact front_stops sound reads large result ▸ sound
  | returned stopped reads result _ same =>
    subst same
    apply offer_sound
    rw [settle_rpdu,front_stops sound reads large result]
    exact sound
  | read begun succ t reads result read same =>
    subst same
    apply offer_sound
    rw [settle_rpdu]
    exact readBody_sound (front_kept sound reads large result) read

theorem step_sound (sound : Sound s.rpdu) (large : LargeSize s label) (taken : step s label = some after) :
    Sound after.rpdu := by
  cases label with
  | readCb first second accepts => exact called_sound sound large (step_called taken).2
  | dies => obtain ⟨_,taken⟩ := Option.ite_none_left_eq_some.mp taken; cases taken; exact sound
  | fails errno => obtain ⟨_,taken⟩ := Option.ite_none_left_eq_some.mp taken; cases taken; exact sound

theorem runs_sound (path : Machine.Runs step LargeSize (initial stream errno) labels s) : Sound s.rpdu :=
  path.invariant (.inl rfl) (fun _ _ _ sound large taken => step_sound sound large taken)

theorem received_decided (running : s.aborted = false) (sound : Sound s.rpdu) (received : Received s first size)
    (large : rpcSzSize ≤ size) (called : Called s first second accepts after) :
    (∃ stopped, front s first = some (.returns false stopped) ∧ after.dead = true) ∨
    ∃ begun, front s first = some (.reads begun) ∧ begun.rpdu.sz = size ∧ Kept begun.rpdu := by
  obtain ⟨reads,zero,whole,same⟩ := received
  have free : s.rpdu.buf = none := by rw [sound.between zero]; rfl
  cases called with
  | dead dead _ => rw [reads.1] at dead; cases dead
  | full idle _ => exact absurd reads idle
  | aborted _ result aborted =>
    have begins := Received.front_begins ⟨reads,zero,whole,same⟩ result
    have untouched := beginPdu_rejects begins.symm (same ▸ large) free
    rw [untouched] at aborted
    exact absurd (running.symm.trans aborted) (by simp)
  | returned stopped _ result _ settled =>
    refine .inl ⟨stopped,result,?_⟩
    rw [settled,offer_dead]
    rfl
  | read begun succ t _ result _ _ =>
    have begins := Received.front_begins ⟨reads,zero,whole,same⟩ result
    obtain ⟨named,kept⟩ := beginPdu_kept (same ▸ large) begins.symm
    exact .inr ⟨begun,result,named.trans same.symm,kept⟩

theorem received_small (received : Received s first size) (small : ¬ rpcSzSize ≤ size)
    (called : Called s first second accepts after) : ¬ SafeCb s first after := by
  intro safe
  have below : ntohl (s.stream.take rpcSzSize) < rpcSzSize := by
    rw [← received.2.2.2]; omega
  rcases beginPdu_small (s:={s with stream:=s.stream.drop rpcSzSize}) below with
    ⟨t,begins,aborted,dead⟩ | ⟨begun,begins,broken⟩
  · -- The assertion on the result of malloc: the connection is not marked dead.
    rcases safe.decided size received with ⟨stopped,result,marked⟩ | ⟨begun,result,_,_⟩
    · have same := (Received.front_begins received result).trans begins
      cases called with
      | dead gone _ => rw [received.1.1] at gone; cases gone
      | full idle _ => exact idle received.1
      | aborted _ again _ =>
        cases same
        cases Option.some.inj (result.symm.trans again)
        rw [dead] at marked
        exact absurd (received.1.1.symm.trans marked) (by simp)
      | returned other _ again running _ =>
        cases same
        cases Option.some.inj (result.symm.trans again)
        rw [aborted] at running
        cases running
      | read begun _ _ _ again _ _ => cases Option.some.inj (result.symm.trans again)
    · cases (Received.front_begins received result).trans begins
  · rcases safe.decided size received with ⟨stopped,result,_⟩ | ⟨other,result,_,kept⟩
    · cases (Received.front_begins received result).trans begins
    · cases (Received.front_begins received result).trans begins
      exact broken kept

theorem safe_iff (sound : Sound s.rpdu) (taken : step s label = some after) : Safe s label ↔ LargeSize s label := by
  cases label with
  | readCb first second accepts =>
    obtain ⟨running,called⟩ := step_called taken
    constructor
    · intro safe size received
      by_contra small
      exact received_small received small called (safe after taken)
    · intro large after' again
      cases Option.some.inj (taken.symm.trans again)
      refine ⟨?_,?_,?_,called_sound sound large called⟩
      · exact fun size received => received_decided running sound received (large size received) called
      · intro begun reads result
        have kept := front_kept sound reads large result
        refine ⟨kept,?_⟩
        obtain ⟨_,_,high,_⟩ := kept
        simp only [requested]
        omega
      · intro size received
        rw [sound.between received.2.1]
        rfl
  | dies => exact iff_of_true (fun _ taken => step_sound sound (show LargeSize s .dies from trivial) taken) trivial
  | fails errno => exact iff_of_true (fun _ taken => step_sound sound (show LargeSize s (.fails errno) from trivial) taken) trivial

theorem size_prefix_safe_iff (path : Machine.Runs step Machine.free (initial stream errno) labels s) :
    Machine.Runs step Safe (initial stream errno) labels s ↔
      Machine.Runs step LargeSize (initial stream errno) labels s := by
  apply path.steps_iff
  intro earlier before label after _ good _ taken
  exact safe_iff (runs_sound good) taken

theorem size_prefix_safe_whole :
    ∃ s, Machine.Runs step Safe (initial one.bytes .other) [.readCb (.data 4) (.data 20) true] s ∧
      s.accepted = [one.bytes] := by
  have seen : (Machine.exec step (initial one.bytes .other) [.readCb (.data 4) (.data 20) true]).map State.accepted =
      some [one.bytes] := by decide +kernel
  obtain ⟨s,path,accepted⟩ := Machine.exec_free_observed seen
  have large : LargeSize (initial one.bytes .other) (.readCb (.data 4) (.data 20) true) := by
    rintro size ⟨_,_,_,rfl⟩
    decide +kernel
  exact ⟨s,(size_prefix_safe_iff path).mpr (.single large path.single_inv.2),accepted⟩

theorem zero_size_unsafe :
    ∃ s, Machine.Runs step Machine.free (initial [0,0,0,0] .other) [.readCb (.data 4) (.error .other) true] s ∧
      ¬ Machine.Runs step Safe (initial [0,0,0,0] .other) [.readCb (.data 4) (.error .other) true] s ∧
      ∃ begun, front (initial [0,0,0,0] .other) (.data 4) = some (.reads begun) ∧ requested begun = -4 := by
  have seen : (Machine.exec step (initial [0,0,0,0] .other) [.readCb (.data 4) (.error .other) true]).map State.dead =
      some true := by decide +kernel
  have begins : ∃ begun, front (initial [0,0,0,0] .other) (.data 4) = some (.reads begun) ∧ requested begun = -4 :=
    ⟨_,rfl,by decide +kernel⟩
  obtain ⟨s,path,_⟩ := Machine.exec_free_observed seen
  refine ⟨s,path,?_,begins⟩
  intro whole
  obtain ⟨safe,taken⟩ := whole.single_inv
  obtain ⟨begun,result,length⟩ := begins
  have bounded := ((safe s taken).requests begun ⟨rfl,.inl rfl⟩ result).2
  omega

-- A read of this read_cb returned 0: the one of the size, or the one behind it.
def EndsAtSize (s : State) (first : ReadResult) : Prop := Reads s ∧ s.rpdu.sz = 0 ∧ first = .eof

def EndsInPdu (s : State) (first second : ReadResult) : Prop :=
  Reads s ∧ (∃ begun, front s first = some (.reads begun)) ∧ second = .eof

def Killed (s : State) : Prop := s.dead = true ∧ s.watched = false

def EofKills (s : State) : Label → Prop
  | .readCb first second accepts => ∀ after, step s (.readCb first second accepts) = some after →
      EndsAtSize s first ∨ EndsInPdu s first second → Killed after
  | _ => True

-- Inside a PDU no EAGAIN is left over from an earlier call of the thread.
def FreshErrno (s : State) : Label → Prop
  | .readCb first second _ => EndsInPdu s first second → s.errno ≠ .EAGAIN
  | _ => True

theorem offer_killed (killed : Killed s) : Killed (offer s accepts) := by
  unfold offer
  split
  · exact killed
  · split <;> exact killed

theorem size_eof_killed (running : s.aborted = false) (ends : EndsAtSize s first)
    (called : Called s first second accepts after) : Killed after := by
  obtain ⟨reads,zero,rfl⟩ := ends
  have returns : front s .eof = some (.returns false s) := by simp [front,zero]
  cases called with
  | dead dead _ => rw [reads.1] at dead; cases dead
  | full idle _ => exact absurd reads idle
  | aborted _ result aborted =>
    cases Option.some.inj (returns.symm.trans result)
    rw [running] at aborted
    cases aborted
  | returned stopped _ _ _ same =>
    subst same
    apply offer_killed
    exact ⟨rfl,rfl⟩
  | read begun _ _ _ result _ _ => cases Option.some.inj (returns.symm.trans result)

theorem pdu_eof_killed_iff (ends : EndsInPdu s first second) (called : Called s first second accepts after) :
    Killed after ↔ s.errno ≠ .EAGAIN := by
  obtain ⟨reads,⟨begun,begins⟩,rfl⟩ := ends
  have errno := (front_running begins).2.1
  cases called with
  | dead dead _ => rw [reads.1] at dead; cases dead
  | full idle _ => exact absurd reads idle
  | aborted _ result _ => cases Option.some.inj (begins.symm.trans result)
  | returned _ _ result _ _ => cases Option.some.inj (begins.symm.trans result)
  | read other succ t _ result read same =>
    cases Option.some.inj (begins.symm.trans result)
    subst same
    simp only [readBody,errno] at read
    split at read
    · -- The stale EAGAIN is taken for a read that would block.
      rename_i stale
      cases read
      refine iff_of_false ?_ (by simpa using stale)
      intro killed
      have dead : (offer (settle true begun) accepts).dead = false :=
        (offer_dead _ _).trans ((front_running begins).2.2.trans reads.1)
      rw [killed.1] at dead
      cases dead
    · rename_i fresh
      cases read
      exact iff_of_true (offer_killed ⟨rfl,rfl⟩) fresh

theorem eofKills_iff (taken : step s label = some after) : EofKills s label ↔ FreshErrno s label := by
  cases label with
  | readCb first second accepts =>
    obtain ⟨running,called⟩ := step_called taken
    constructor
    · intro kills ends
      exact (pdu_eof_killed_iff ends called).mp (kills after taken (.inr ends))
    · intro fresh after' again either
      cases Option.some.inj (taken.symm.trans again)
      rcases either with size | inside
      · exact size_eof_killed running size called
      · exact (pdu_eof_killed_iff inside called).mpr (fresh inside)
  | dies => exact Iff.rfl
  | fails errno => exact Iff.rfl

theorem eof_kills_iff (path : Machine.Runs step Machine.free (initial stream errno) labels s) :
    (Machine.Runs step EofKills (initial stream errno) labels s ↔
      Machine.Runs step FreshErrno (initial stream errno) labels s) ∧
    ∀ label after, step s label = some after → (EofKills s label ↔ FreshErrno s label) := by
  refine ⟨?_,fun label after taken => eofKills_iff taken⟩
  apply path.steps_iff
  intro earlier before label after _ _ _ taken
  exact eofKills_iff taken

-- Ten bytes of a PDU, a call of another connection that would block, and then
-- the peer closes: the connection stays alive and registered.
theorem stale_errno_survives :
    ∃ s after, Machine.Runs step Machine.free (initial (one.bytes.take 10) .other)
        [.readCb (.data 4) (.data 6) true,.fails .EAGAIN] s ∧
      step s (.readCb .eof .eof true) = some after ∧ EndsInPdu s .eof .eof ∧ ¬ Killed after := by
  have seen : (Machine.exec step (initial (one.bytes.take 10) .other)
      [.readCb (.data 4) (.data 6) true,.fails .EAGAIN]).map
        (fun s => (s.dead,s.rpdu.solong,s.rpdu.sz,(step s (.readCb .eof .eof true)).map State.dead)) =
      some (false,10,24,some false) := by decide +kernel
  obtain ⟨s,path,view⟩ := Machine.exec_free_observed seen
  simp only [Prod.mk.injEq] at view
  obtain ⟨alive,solong,size,later⟩ := view
  obtain ⟨after,taken,still⟩ := Option.map_eq_some_iff.mp later
  have reads : Reads s := ⟨alive,.inr (by omega)⟩
  have begins : front s .eof = some (.reads s) := by simp [front,size]
  refine ⟨s,after,path,taken,⟨reads,⟨s,begins⟩,rfl⟩,?_⟩
  intro killed
  rw [killed.1] at still
  cases still

-- The same without the call of the other connection.
theorem fresh_errno_killed :
    ∃ s, Machine.Runs step EofKills (initial (one.bytes.take 10) .other)
        [.readCb (.data 4) (.data 6) true,.readCb .eof .eof true] s ∧ Killed s := by
  have first : (Machine.exec step (initial (one.bytes.take 10) .other) [.readCb (.data 4) (.data 6) true]).map State.errno =
      some .other := by decide +kernel
  have seen : (Machine.exec step (initial (one.bytes.take 10) .other)
      [.readCb (.data 4) (.data 6) true,.readCb .eof .eof true]).map (fun s => (s.dead,s.watched)) =
      some (true,false) := by decide +kernel
  obtain ⟨mid,prior,errno⟩ := Machine.exec_free_observed first
  obtain ⟨s,path,view⟩ := Machine.exec_free_observed seen
  obtain ⟨dead,watched⟩ := Prod.mk.inj view
  have whole : Machine.Runs step Machine.free (initial (one.bytes.take 10) .other)
      ([.readCb (.data 4) (.data 6) true] ++ [.readCb .eof .eof true]) s := path
  have last := (whole.rest prior).single_inv.2
  have begun : FreshErrno (initial (one.bytes.take 10) .other) (.readCb (.data 4) (.data 6) true) := fun _ => by decide
  have fresh : FreshErrno mid (.readCb .eof .eof true) := fun _ => by simp [errno]
  have good := Machine.Runs.snoc (Machine.Runs.single begun prior.single_inv.2) fresh last
  exact ⟨s,(eof_kills_iff path).1.mpr good,dead,watched⟩

end YfsLab.ReadPdu
