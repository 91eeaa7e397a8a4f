import YfsLab.Lib.Counting
import YfsLab.Lib.References
import YfsLab.CallTable

namespace YfsLab.ClientRefs
open References Rpcc CallTable

-- An rpcc with the reference counts of its connections. After ~rpcc there is no
-- chan_ any more.
structure State where
  rpcc : Rpcc.State
  counts : Counts Nat
  destroyed : Bool

def initial (cltNonce : UInt32) (retrans : Bool) : State := ⟨Rpcc.initial cltNonce retrans,.initial,false⟩

inductive Label where
  | rpcc (label : Rpcc.Label)
  | destroy

def stale (s : Rpcc.State) : Bool :=
  match s.chan with
  | none => true
  | some c => s.dead c

def release (dead : Nat → Bool) (counts : Counts Nat) : Option Nat → Counts Nat
  | none => counts
  | some c => counts.decref (dead c) c

-- The first half of get_refconn: chan_ goes and a connection is made, whose
-- constructor counts one.
def newChan (s : Rpcc.State) (connects : Bool) : Option Nat :=
  if stale s then (if connects then some s.opened else none) else s.chan

def refresh (s : Rpcc.State) (connects : Bool) (counts : Counts Nat) : Counts Nat :=
  if stale s then
    let counts := release s.dead counts s.chan
    if connects then counts.create s.opened else counts
  else counts

-- Then *ch goes and chan_ is counted once more.
def getRefconn (s : Rpcc.State) (ca : Caller) (connects : Bool) (counts : Counts Nat) : Counts Nat :=
  let counts := refresh s connects counts
  match newChan s connects with
  | none => counts
  | some c => (release s.dead counts ca.ch).incref c

def recount (s : State) : Rpcc.Label → Counts Nat
  | .getRefconn k connects =>
    match s.rpcc.callers[k]? with
    | some ca => getRefconn s.rpcc ca connects s.counts
    | none => s.counts
  | .ret k =>
    match s.rpcc.callers[k]? with
    | some ca => release s.rpcc.dead s.counts ca.ch
    | none => s.counts
  | _ => s.counts

def destroy (s : State) : State :=
  match s.rpcc.chan with
  | none => {s with destroyed:=true}
  | some c =>
    {rpcc:={s.rpcc with chan:=none,dead:=fun other => if other = c then true else s.rpcc.dead other}
     counts:=s.counts.decref true c,destroyed:=true}

def step (s : State) : Label → Option State
  | .rpcc label => (Rpcc.step s.rpcc label).map fun rpcc => {s with rpcc,counts:=recount s label}
  | .destroy => some (destroy s)

def isOver : Pc → Bool
  | .returned _ _ | .bound => true
  | .top _ | .sending | .sent | .waiting | .timedOut | .ended | .erased => false

-- "destruction should happen only when no external threads are blocked inside
-- rpcc or will use rpcc in the future"; connections may die at any time.
def Documented (s : State) : Label → Prop
  | .destroy => s.destroyed = false ∧ ∀ ca ∈ s.rpcc.callers, isOver ca.pc = true
  | .rpcc (.connDies _) => True
  | .rpcc _ => s.destroyed = false

instance documentedDecidable (s : State) (label : Label) : Decidable (Documented s label) :=
  match label with
  | .destroy => inferInstanceAs (Decidable (_ ∧ ∀ ca ∈ s.rpcc.callers, isOver ca.pc = true))
  | .rpcc (.connDies _) => .isTrue trivial
  | .rpcc (.call ..) | .rpcc (.getRefconn ..) | .rpcc (.send _) | .rpcc (.deadline _) | .rpcc (.await _)
  | .rpcc (.wake _) | .rpcc (.timeout _) | .rpcc (.again _) | .rpcc (.finish _) | .rpcc (.ret _) | .rpcc (.bound _)
  | .rpcc (.gotPdu _) => inferInstanceAs (Decidable (s.destroyed = false))

def holds (c : Nat) (ca : Caller) : Bool := ca.ch == some c && !isOver ca.pc

def one (holder : Option Nat) (c : Nat) : Nat := if holder = some c then 1 else 0

def held (s : Rpcc.State) (c : Nat) : Nat := one s.chan c + s.callers.countP (holds c)

section Callers
variable {s s' : Rpcc.State} {label : Rpcc.Label} {k : Nat} {ca ca' : Caller}

theorem holds_running (running : isOver ca.pc = false) (c : Nat) : (if holds c ca then 1 else 0) = one ca.ch c := by
  simp [holds,one,running]

theorem holds_over (ended : isOver ca.pc = true) (c : Nat) : holds c ca = false := by
  simp [holds,ended]

theorem count_same (there : s.callers[k]? = some ca) (same : ∀ c, holds c ca' = holds c ca) (c : Nat) :
    (s.callers.set k ca').countP (holds c) = s.callers.countP (holds c) := by
  have counted := Counting.count_set (holds c) ca' there
  rw [same c] at counted
  omega

-- All steps but two leave the references alone.
structure Calm (s s' : Rpcc.State) : Prop where
  chan : s'.chan = s.chan
  opened : s'.opened = s.opened
  dead : ∀ c, s.dead c = true → s'.dead c = true
  count : ∀ c, s'.callers.countP (holds c) = s.callers.countP (holds c)

theorem calm_pc (there : s.callers[k]? = some ca) (same : isOver pc = isOver ca.pc) :
    Calm s (setCaller s k {ca with pc:=pc}) :=
  ⟨rfl,rfl,fun _ => id,count_same there fun c => by simp only [holds,same]⟩

theorem gotPdu_calm (s : Rpcc.State) (pdu : List UInt8) : Calm s (gotPdu s pdu) := by
  unfold gotPdu
  dsimp only
  split
  · exact ⟨rfl,rfl,fun _ => id,fun _ => rfl⟩
  · split
    · exact ⟨rfl,rfl,fun _ => id,fun _ => rfl⟩
    · split
      · exact ⟨rfl,rfl,fun _ => id,fun _ => rfl⟩
      · rename_i ca there
        split
        · exact ⟨rfl,rfl,fun _ => id,fun _ => rfl⟩
        · exact ⟨rfl,rfl,fun _ => id,count_same there fun _ => rfl⟩

theorem call_calm (s : Rpcc.State) (proc : UInt32) (args : List Val) (ty : Ty) (junk : Nat → UInt8) :
    Calm s (call s proc args ty junk) := by
  unfold call
  split
  · exact ⟨rfl,rfl,fun _ => id,fun _ => rfl⟩
  · refine ⟨rfl,rfl,fun _ => id,fun c => ?_⟩
    simp [holds,newCaller]

theorem step_calm (taken : Rpcc.step s label = some s') (noConnection : ∀ k connects, label ≠ .getRefconn k connects)
    (noReturn : ∀ k, label ≠ .ret k) : Calm s s' := by
  cases own : label.caller with
  | none =>
    cases label with
    | call proc args ty junk => cases Option.some.inj taken; exact call_calm s proc args ty junk
    | gotPdu pdu => cases Option.some.inj taken; exact gotPdu_calm s pdu
    | connDies c =>
      cases Option.some.inj taken
      refine ⟨rfl,rfl,fun other dead => ?_,fun _ => rfl⟩
      show (if other = c then true else s.dead other) = true
      rw [dead,ite_self]
    | getRefconn | send | deadline | await | wake | timeout | again | finish | ret | bound => cases own
  | some k =>
    obtain ⟨ca,there,taken⟩ := step_caller own taken
    cases label with
    | call | gotPdu | connDies => cases own
    | getRefconn n connects => exact absurd rfl (noConnection n connects)
    | ret n => exact absurd rfl (noReturn n)
    | send n =>
      obtain ⟨pc,same⟩ := Option.ite_none_right_eq_some.mp taken
      cases Option.some.inj same
      rcases pc with pc | pc <;> exact calm_pc there (by rw [pc]; rfl)
    | deadline n | await n | again n =>
      obtain ⟨pc,same⟩ := Option.ite_none_right_eq_some.mp taken
      cases Option.some.inj same
      exact calm_pc there (by rw [pc]; rfl)
    | wake n | timeout n =>
      obtain ⟨⟨pc,_⟩,same⟩ := Option.ite_none_right_eq_some.mp taken
      cases Option.some.inj same
      exact calm_pc there (by rw [pc]; rfl)
    | finish n =>
      obtain ⟨pc,same⟩ := Option.ite_none_right_eq_some.mp taken
      cases Option.some.inj same
      exact ⟨rfl,rfl,fun _ => id,count_same there fun c => by simp only [holds,pc,isOver]⟩
    | bound n =>
      obtain ⟨_,taken⟩ := Option.ite_none_right_eq_some.mp taken
      split at taken
      · cases taken
      · rename_i r finished
        cases Option.some.inj taken
        obtain ⟨_,pc,_⟩ := bindResult_some finished
        exact ⟨rfl,rfl,fun _ => id,count_same there fun c => by simp only [holds,pc,isOver]⟩

end Callers

theorem step_references {s s' : Rpcc.State} {label : Rpcc.Label} (taken : Rpcc.step s label = some s') :
    (Calm s s' ∧ ∀ counts destroyed, recount ⟨s,counts,destroyed⟩ label = counts) ∨
    (∃ k connects ca, label = .getRefconn k connects ∧ s.callers[k]? = some ca ∧ ca.pc = .top true ∧
      s' = Rpcc.getRefconn s k ca connects) ∨
    (∃ k ca, label = .ret k ∧ s.callers[k]? = some ca ∧ ca.pc = .erased ∧
      s' = setCaller s k {ca with pc:=.returned (result ca).1 (result ca).2}) := by
  cases label with
  | getRefconn k connects =>
    obtain ⟨ca,there,taken⟩ := step_caller (k:=k) rfl taken
    obtain ⟨pc,same⟩ := Option.ite_none_right_eq_some.mp taken
    exact .inr (.inl ⟨k,connects,ca,rfl,there,pc,(Option.some.inj same).symm⟩)
  | ret k =>
    obtain ⟨ca,there,taken⟩ := step_caller (k:=k) rfl taken
    obtain ⟨pc,same⟩ := Option.ite_none_right_eq_some.mp taken
    exact .inr (.inr ⟨k,ca,rfl,there,pc,(Option.some.inj same).symm⟩)
  | call | send | deadline | await | wake | timeout | again | finish | bound | gotPdu | connDies =>
    exact .inl ⟨step_calm taken (fun _ _ same => by cases same) (fun _ same => by cases same),fun _ _ => rfl⟩

-- A call in progress keeps chan_ or a connection that has died.
structure Sound (s : State) : Prop where
  balanced : Balanced (· < s.rpcc.opened) (held s.rpcc) s.counts
  old : ∀ c, s.rpcc.callers.countP (holds c) ≠ 0 → s.rpcc.chan = some c ∨ s.rpcc.dead c = true
  dead : ∀ c ∈ s.counts.deleted, s.rpcc.dead c = true
  finished : s.destroyed = true → s.rpcc.chan = none ∧ ∀ ca ∈ s.rpcc.callers, isOver ca.pc = true

theorem initial_sound (cltNonce : UInt32) (retrans : Bool) : Sound (initial cltNonce retrans) := by
  refine ⟨?_,fun c used => absurd rfl used,fun c member => absurd member List.not_mem_nil,fun never => by cases never⟩
  have nothing : (fun c => c < (initial cltNonce retrans).rpcc.opened) = fun _ => False :=
    funext fun c => by simp [initial,Rpcc.initial]
  rw [nothing]
  exact initial_balanced

section Steps
variable {s s' : State} {k : Nat} {ca : Caller}

theorem one_some (n c : Nat) : one (some n) c = if c = n then 1 else 0 := by
  simp [one,eq_comm]

theorem release_deleted {dead : Nat → Bool} {counts : Counts Nat} {holder : Option Nat} {c : Nat}
    (member : c ∈ (release dead counts holder).deleted) : c ∈ counts.deleted ∨ dead c = true := by
  cases holder with
  | none => exact .inl member
  | some n =>
    simp only [release,Counts.decref] at member
    split at member
    · rename_i last
      rcases List.mem_append.mp member with before | now
      · exact .inl before
      · exact .inr (List.mem_singleton.mp now ▸ last.2)
    · exact .inl member

theorem release_balanced {made : Nat → Prop} {before after : Nat → Nat} {dead : Nat → Bool} {counts : Counts Nat}
    {holder : Option Nat} (balanced : Balanced made before counts) (less : ∀ c, before c = after c + one holder c)
    (last : ∀ c, holder = some c → after c = 0 → dead c = true) : Balanced made after (release dead counts holder) := by
  cases holder with
  | none => exact balanced.congr fun c => (less c).symm
  | some n => exact balanced.decref (fun c => by rw [less c,one_some]) (last n rfl)

theorem getRefconn_chan (s : Rpcc.State) (k : Nat) (ca : Caller) (connects : Bool) :
    (Rpcc.getRefconn s k ca connects).chan = newChan s connects := rfl

theorem getRefconn_callers (s : Rpcc.State) (k : Nat) (ca : Caller) (connects : Bool) :
    (Rpcc.getRefconn s k ca connects).callers =
      s.callers.set k {ca with ch:=(newChan s connects).or ca.ch,pc:=.sending} := rfl

theorem getRefconn_opened (s : Rpcc.State) (k : Nat) (ca : Caller) (connects : Bool) :
    (Rpcc.getRefconn s k ca connects).opened = if stale s && connects then s.opened + 1 else s.opened := rfl

theorem refresh_balanced (sound : Sound s) (connects : Bool) :
    Balanced (· < if stale s.rpcc && connects then s.rpcc.opened + 1 else s.rpcc.opened)
      (fun c => one (newChan s.rpcc connects) c + s.rpcc.callers.countP (holds c)) (refresh s.rpcc connects s.counts) := by
  unfold refresh newChan
  cases test : stale s.rpcc with
  | false => exact sound.balanced
  | true =>
    have released : Balanced (· < s.rpcc.opened) (fun c => s.rpcc.callers.countP (holds c))
        (release s.rpcc.dead s.counts s.rpcc.chan) := by
      refine release_balanced sound.balanced (fun c => Nat.add_comm _ _) fun c here _ => ?_
      rwa [stale,here] at test
    cases connects with
    | false => exact released.congr fun c => Nat.zero_add _
    | true =>
      have made : (fun c => c < s.rpcc.opened + 1) = fun c => c < s.rpcc.opened ∨ c = s.rpcc.opened :=
        funext fun c => propext (by omega)
      simp only [if_true,Bool.and_self]
      rw [made]
      refine released.create (Nat.lt_irrefl _) fun c => ?_
      rw [one_some,Nat.add_comm]

theorem newChan_keeps {c : Nat} (s : Rpcc.State) (connects : Bool) (here : s.chan = some c) :
    newChan s connects = some c ∨ s.dead c = true := by
  unfold newChan
  cases test : stale s with
  | false => exact .inl here
  | true => exact .inr (by rwa [stale,here] at test)

theorem create_deleted (counts : Counts Nat) (k : Nat) : (counts.create k).deleted = counts.deleted := rfl
theorem incref_deleted (counts : Counts Nat) (k : Nat) : (counts.incref k).deleted = counts.deleted := rfl

theorem getRefconn_deleted {c : Nat} (connects : Bool) {s : Rpcc.State} {counts : Counts Nat}
    (member : c ∈ (getRefconn s ca connects counts).deleted) : c ∈ counts.deleted ∨ s.dead c = true := by
  have first : c ∈ (refresh s connects counts).deleted → c ∈ counts.deleted ∨ s.dead c = true := by
    unfold refresh
    dsimp only
    split
    · split
      · rw [create_deleted]
        exact release_deleted
      · exact release_deleted
    · exact .inl
  unfold getRefconn at member
  dsimp only at member
  split at member
  · exact first member
  · rw [incref_deleted] at member
    exact (release_deleted member).elim first .inr

theorem counted (there : s.rpcc.callers[k]? = some ca) (running : isOver ca.pc = false) (ca' : Caller) (c : Nat) :
    (s.rpcc.callers.set k ca').countP (holds c) + one ca.ch c =
      s.rpcc.callers.countP (holds c) + if holds c ca' then 1 else 0 := by
  rw [← Counting.count_set (holds c) ca' there,holds_running running]

theorem Sound.mine (sound : Sound s) (there : s.rpcc.callers[k]? = some ca) (running : isOver ca.pc = false) {c : Nat}
    (here : ca.ch = some c) : s.rpcc.chan = some c ∨ s.rpcc.dead c = true := by
  refine sound.old c (Nat.pos_iff_ne_zero.mp (List.countP_pos_iff.mpr ⟨ca,List.mem_of_getElem? there,?_⟩))
  simp [holds,here,running]

def without (s : State) (k : Nat) (ca : Caller) (c : Nat) : Nat :=
  (s.rpcc.callers.set k {ca with pc:=.bound}).countP (holds c)

theorem without_split (there : s.rpcc.callers[k]? = some ca) (running : isOver ca.pc = false) (c : Nat) :
    s.rpcc.callers.countP (holds c) = without s k ca c + one ca.ch c := by
  have count := counted there running {ca with pc:=.bound} c
  rw [holds_over rfl,if_neg Bool.false_ne_true,Nat.add_zero] at count
  exact count.symm

theorem without_set (there : s.rpcc.callers[k]? = some ca) (running : isOver ca.pc = false) (ca' : Caller) (c : Nat) :
    (s.rpcc.callers.set k ca').countP (holds c) = without s k ca c + if holds c ca' then 1 else 0 := by
  have count := counted there running ca' c
  rw [without_split there running] at count
  omega

theorem getRefconn_sound (sound : Sound s) (there : s.rpcc.callers[k]? = some ca) (pc : ca.pc = .top true)
    (connects : Bool) (live : s.destroyed = false) :
    Sound {s with rpcc:=Rpcc.getRefconn s.rpcc k ca connects,counts:=getRefconn s.rpcc ca connects s.counts} := by
  have running : isOver ca.pc = false := by rw [pc]; rfl
  have refreshed := refresh_balanced sound connects
  have moved : ∀ c, (Rpcc.getRefconn s.rpcc k ca connects).callers.countP (holds c) =
      without s k ca c + one ((newChan s.rpcc connects).or ca.ch) c := by
    intro c
    rw [getRefconn_callers,without_set there running,holds_running rfl]
  have mine : ∀ c, ca.ch = some c → newChan s.rpcc connects = some c ∨ s.rpcc.dead c = true := fun c here =>
    (sound.mine there running here).elim (newChan_keeps s.rpcc connects) .inr
  refine ⟨?_,fun c used => ?_,fun c member => (getRefconn_deleted connects member).elim (sound.dead c) id,
    fun ended => absurd (live.symm.trans ended) Bool.false_ne_true⟩
  · unfold held getRefconn
    simp only [getRefconn_opened,getRefconn_chan]
    cases chan : newChan s.rpcc connects with
    | none =>
      rw [chan] at refreshed moved
      refine refreshed.congr fun c => ?_
      rw [moved,without_split there running,Option.none_or]
    | some n =>
      rw [chan] at refreshed moved mine
      have less : ∀ c, one (some n) c + s.rpcc.callers.countP (holds c) =
          one (some n) c + without s k ca c + one ca.ch c := fun c => by rw [without_split there running,Nat.add_assoc]
      have released := release_balanced refreshed less
        fun c here none_ => (mine c here).resolve_left fun same => by simp [same,one] at none_
      refine released.incref (by simp [one]) fun c => ?_
      rw [moved,Option.some_or,one_some]
      omega
  · rw [moved] at used
    by_cases own : one ((newChan s.rpcc connects).or ca.ch) c = 0
    · have before : s.rpcc.callers.countP (holds c) ≠ 0 := by
        rw [without_split there running]
        omega
      exact (sound.old c before).elim (newChan_keeps s.rpcc connects) .inr
    · have here : (newChan s.rpcc connects).or ca.ch = some c := by
        by_contra other
        exact own (if_neg other)
      rcases Option.or_eq_some_iff.mp here with new | ⟨_,kept⟩
      · exact .inl new
      · exact mine c kept

theorem ret_sound (sound : Sound s) (there : s.rpcc.callers[k]? = some ca) (pc : ca.pc = .erased)
    (live : s.destroyed = false) (ret : Int32) (r : Option Val) :
    Sound {s with rpcc:=setCaller s.rpcc k {ca with pc:=.returned ret r},counts:=release s.rpcc.dead s.counts ca.ch} := by
  have running : isOver ca.pc = false := by rw [pc]; rfl
  have left_ : ∀ c, (s.rpcc.callers.set k {ca with pc:=.returned ret r}).countP (holds c) = without s k ca c := by
    intro c
    rw [without_set there running,holds_over rfl]
    rfl
  refine ⟨?_,fun c used => sound.old c ?_,fun c member => (release_deleted member).elim (sound.dead c) id,
    fun ended => absurd (live.symm.trans ended) Bool.false_ne_true⟩
  · refine release_balanced sound.balanced (fun c => ?_) fun c here none_ => ?_
    · show one s.rpcc.chan c + _ = one s.rpcc.chan c + (s.rpcc.callers.set k _).countP _ + _
      rw [left_,without_split there running,Nat.add_assoc]
    · refine (sound.mine there running here).resolve_left fun same => ?_
      simp [held,setCaller,same,one] at none_
  · rw [without_split there running]
    have count : without s k ca c ≠ 0 := left_ c ▸ used
    omega

theorem calm_sound (sound : Sound s) {after : Rpcc.State} (calm : Calm s.rpcc after)
    (ended : s.destroyed = true → after.callers = s.rpcc.callers) : Sound {s with rpcc:=after} := by
  refine ⟨?_,fun c used => ?_,fun c member => calm.dead c (sound.dead c member),fun done => ?_⟩
  · show Balanced (· < after.opened) (held after) s.counts
    rw [calm.opened]
    exact sound.balanced.congr fun c => by rw [held,held,calm.chan,calm.count]
  · rw [calm.count] at used
    rw [calm.chan]
    exact (sound.old c used).imp id (calm.dead c)
  · obtain ⟨none_,all⟩ := sound.finished done
    exact ⟨calm.chan.trans none_,ended done ▸ all⟩

theorem destroy_sound (sound : Sound s) (quiet : ∀ ca ∈ s.rpcc.callers, isOver ca.pc = true) : Sound (destroy s) := by
  have nobody : ∀ c, s.rpcc.callers.countP (holds c) = 0 := fun c =>
    List.countP_eq_zero.mpr fun ca member => by simp [holds_over (quiet ca member)]
  unfold destroy
  cases chan : s.rpcc.chan with
  | none => exact ⟨sound.balanced,sound.old,sound.dead,fun _ => ⟨chan,quiet⟩⟩
  | some n =>
    refine ⟨?_,fun c used => absurd (nobody c) used,fun c member => ?_,fun _ => ⟨rfl,quiet⟩⟩
    · refine sound.balanced.decref (fun c => ?_) fun _ => rfl
      simp only [held,chan,one_some]
      simp [one,Nat.add_comm]
    · show (if c = n then true else s.rpcc.dead c) = true
      have known : c ∈ s.counts.deleted ∨ c = n := by
        simp only [Counts.decref] at member
        split at member
        · exact (List.mem_append.mp member).imp id List.mem_singleton.mp
        · exact .inl member
      rcases known with before | same
      · rw [sound.dead c before,ite_self]
      · rw [if_pos same]

theorem step_sound {label : Label} (sound : Sound s) (allowed : Documented s label) (taken : step s label = some s') :
    Sound s' := by
  cases label with
  | destroy =>
    cases Option.some.inj taken
    exact destroy_sound sound allowed.2
  | rpcc label =>
    obtain ⟨after,inner,rfl⟩ := Option.map_eq_some_iff.mp taken
    rcases step_references inner with ⟨calm,same⟩ | ⟨k,connects,ca,rfl,there,pc,rfl⟩ | ⟨k,ca,rfl,there,pc,rfl⟩
    · rw [show recount s label = s.counts from same s.counts s.destroyed]
      refine calm_sound sound calm fun ended => ?_
      cases label with
      | connDies c => cases Option.some.inj inner; rfl
      | call | getRefconn | send | deadline | await | wake | timeout | again | finish | ret | bound | gotPdu =>
        exact absurd (Eq.trans (Eq.symm ended) allowed) (by decide)
    · rw [show recount s (.getRefconn k connects) = getRefconn s.rpcc ca connects s.counts by simp [recount,there]]
      exact getRefconn_sound sound there pc connects allowed
    · rw [show recount s (.ret k) = release s.rpcc.dead s.counts ca.ch by simp [recount,there]]
      exact ret_sound sound there pc allowed _ _

end Steps

section Results
variable {s : State} {labels : List Label} {cltNonce : UInt32} {retrans : Bool}

theorem runs_sound (path : Machine.Runs step Documented (initial cltNonce retrans) labels s) : Sound s := by
  refine path.invariant (initial_sound cltNonce retrans) fun before label after sound allowed taken => ?_
  exact step_sound sound allowed taken

theorem runs_linked (path : Machine.Runs step Documented (initial cltNonce retrans) labels s) :
    Linked cltNonce s.rpcc := by
  induction path with
  | nil => exact initial_linked cltNonce retrans
  | @snoc _ _ label _ _ _ taken linked =>
    cases label with
    | rpcc label =>
      obtain ⟨next,inner,rfl⟩ := Option.map_eq_some_iff.mp taken
      exact step_linked linked inner
    | destroy =>
      cases Option.some.inj taken
      unfold destroy
      split
      · exact linked
      · exact ⟨linked.sender,linked.next,linked.numbered,linked.packed,linked.pending,linked.returned⟩

def Used (s : Rpcc.State) (c : Nat) : Prop :=
  s.chan = some c ∨ ∃ ca ∈ s.callers, ca.ch = some c ∧ isOver ca.pc = false

theorem held_zero (s : Rpcc.State) (c : Nat) : held s c = 0 ↔ ¬ Used s c := by
  simp [held,Used,one,holds,List.countP_eq_zero]

theorem deleted_exactly (path : Machine.Runs step Documented (initial cltNonce retrans) labels s) :
    s.counts.aborted = false ∧
    (∀ c, s.counts.refno c = held s.rpcc c) ∧
    s.counts.deleted.Nodup ∧
    (∀ c, c ∈ s.counts.deleted ↔ c < s.rpcc.opened ∧ ¬ Used s.rpcc c) ∧
    (∀ c ∈ s.counts.deleted, s.rpcc.dead c = true) ∧
    (s.destroyed = true → (∀ c, c < s.rpcc.opened → c ∈ s.counts.deleted) ∧ ∀ x, s.rpcc.calls x = none) := by
  have sound := runs_sound path
  have gone : ∀ c, c ∈ s.counts.deleted ↔ c < s.rpcc.opened ∧ ¬ Used s.rpcc c := fun c => by
    rw [← held_zero]
    exact sound.balanced.gone c
  refine ⟨sound.balanced.sound,sound.balanced.exact,sound.balanced.once,gone,sound.dead,fun ended => ?_⟩
  obtain ⟨none_,all⟩ := sound.finished ended
  constructor
  · intro c opened
    refine (gone c).mpr ⟨opened,?_⟩
    rintro (here | ⟨ca,member,_,running⟩)
    · cases none_.symm.trans here
    · exact absurd ((all ca member).symm.trans running) (by decide)
  · intro x
    cases pending : s.rpcc.calls x with
    | none => rfl
    | some k =>
      -- A call in calls_ has not erased itself.
      obtain ⟨ca,there,_,here⟩ := (runs_linked path).pending x k pending
      have ended := all ca (List.mem_of_getElem? there)
      cases pc : ca.pc with
      | returned | bound => simp [Caller.gone,pc] at here
      | top | sending | sent | waiting | timedOut | ended | erased => simp [isOver,pc] at ended

-- Two calls on a connection that dies: one asks for a new connection, the other
-- keeps the old one until it returns.
theorem old_connection_deleted_by_last_call :
    ∃ (labels : List Label) (s : State),
      Machine.Runs step Documented (initial 7 true) labels s ∧ s.counts.deleted = [0,1] ∧ s.destroyed = true ∧
      (∀ c, c ∈ s.counts.deleted ↔ c < s.rpcc.opened ∧ ¬ Used s.rpcc c) := by
  have ran : (Machine.exec (Machine.guarded step Documented) (initial 7 true)
      ([.call 1 [.int 0] .int (fun _ => 0),.getRefconn 0 true,.call 1 [.int 0] .int (fun _ => 0),.getRefconn 1 true,
        .send 0,.send 1,.await 0,.await 1,.connDies 0,.timeout 0,.again 0,.getRefconn 0 true,.send 0,.deadline 0,
        .finish 0,.ret 0,.gotPdu [0,0,0,28,0,0,0,2,0,0,0,0,0,0,0,0,0,0,0,0,0,0,0,0,0,0,0,9],.wake 1,.finish 1,
        .ret 1].map .rpcc ++
        [.destroy])).map (fun s => (s.counts.deleted,s.destroyed)) = some ([0,1],true) := by
    decide +kernel
  obtain ⟨s,path,seen⟩ := Machine.guarded_observed ran
  obtain ⟨deleted,destroyed⟩ := Prod.mk.inj seen
  exact ⟨_,s,path,deleted,destroyed,(deleted_exactly path).2.2.2.1⟩

end Results

end YfsLab.ClientRefs
