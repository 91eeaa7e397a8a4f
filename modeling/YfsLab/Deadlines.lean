import YfsLab.CallTable
import YfsLab.Timespec
import Mathlib.Logic.Function.Basic

namespace YfsLab.Deadlines
open Rpcc (Caller Pc)
open Timespec

def toMin : Int32 := 1000

-- The variables of call1 that hold times. `start` (the clock when the final
-- deadline was computed), `passes`, `adds` and `waits` are histories: no step
-- reads them.
structure Timer where
  to_ : Int32
  currTo : Int32
  nextdeadline : Timespec
  finaldeadline : Timespec
  start : Timespec
  passes : Nat
  adds : List Int32
  waits : List Timespec
  deriving DecidableEq, Repr

-- The client with its calls, their timers and the clock that clock_gettime
-- reads. A call has no timer before it has read the clock. `work` counts the
-- steps of each calling thread.
structure State where
  client : Rpcc.State
  clock : Timespec
  timers : Nat → Option Timer
  work : Nat → Nat

def initial (cltNonce : UInt32) (retrans : Bool) (clock : Timespec) : State :=
  {client:=Rpcc.initial cltNonce retrans,clock:=clock,timers:=fun _ => none,work:=fun _ => 0}

inductive Label where
  | tick (now : Timespec)
  | start (k : Nat) (to_ : Int32)
  | spurious (k : Nat)
  | client (label : Rpcc.Label)

-- From the first critical section of call1 to its loop. nextdeadline is not
-- initialised.
def begin (clock : Timespec) (to_ : Int32) : Option Timer :=
  (addTimespec clock to_).map fun finaldeadline =>
    {to_:=to_,currTo:=toMin,nextdeadline:=⟨0,0⟩,finaldeadline:=finaldeadline,start:=clock,passes:=0,adds:=[],waits:=[]}

-- The deadlines of one pass. A final deadline of second 0 marks the last pass.
def setDeadline (clock : Timespec) (t : Timer) : Option Timer :=
  (addTimespec clock t.currTo).map fun next =>
    if cmpTimespec next t.finaldeadline > 0 then
      {t with
        nextdeadline:=t.finaldeadline,finaldeadline:={t.finaldeadline with tvSec:=0}
        adds:=t.adds ++ [t.currTo],waits:=t.waits ++ [t.finaldeadline]}
    else {t with nextdeadline:=next,adds:=t.adds ++ [t.currTo],waits:=t.waits ++ [next]}

-- pthread_cond_timedwait returns ETIMEDOUT once the deadline is reached; for a
-- denormalised deadline it returns EINVAL and never ETIMEDOUT.
def Expired (clock deadline : Timespec) : Prop := deadline.Normalised ∧ deadline.nanos ≤ clock.nanos

instance (clock deadline : Timespec) : Decidable (Expired clock deadline) := inferInstanceAs (Decidable (_ ∧ _))

-- What a step of the thread does to its timer, where its times allow the step.
def advance (clock : Timespec) (t : Timer) : Rpcc.Label → Option Timer
  | .send _ => some {t with passes:=t.passes+1}
  | .deadline _ => if t.finaldeadline.tvSec = 0 then some t else none
  | .await _ => if t.finaldeadline.tvSec = 0 then none else setDeadline clock t
  | .timeout _ => if Expired clock t.nextdeadline then some t else none
  | .again _ => some {t with currTo:=t.currTo <<< 1}
  | _ => some t

-- The clock never goes back. A spurious wakeup tests ca.done and waits again.
def step (s : State) : Label → Option State
  | .tick now => if now.Normalised ∧ s.clock.nanos ≤ now.nanos then some {s with clock:=now} else none
  | .start k to_ =>
    if (s.timers k).isNone ∧ k < s.client.callers.length then
      (begin s.clock to_).map fun t => {s with timers:=Function.update s.timers k (some t)}
    else none
  | .spurious k => if (s.client.callers[k]?).map Caller.pc = some .waiting then some s else none
  | .client label =>
    match label.caller with
    | none => (Rpcc.step s.client label).map fun client => {s with client:=client}
    | some k =>
      match s.timers k with
      | none => none
      | some t =>
        match advance s.clock t label with
        | none => none
        | some t' => (Rpcc.step s.client label).map fun client =>
            {s with
              client:=client,timers:=Function.update s.timers k (some t'),work:=Function.update s.work k (s.work k+1)}

inductive Goes (done : Bool) : Rpcc.Label → Pc → Pc → Prop where
  | getRefconn : Goes done (.getRefconn k connects) (.top true) .sending
  | send : pc = .sending ∨ pc = .top false → Goes done (.send k) pc .sent
  | deadline : Goes done (.deadline k) .sent .ended
  | await : Goes done (.await k) .sent .waiting
  | wake : done = true → Goes done (.wake k) .waiting .ended
  | timeout : done = false → Goes done (.timeout k) .waiting .timedOut
  | again : Goes done (.again k) .timedOut (.top transmit)
  | finish : Goes done (.finish k) .ended .erased
  | ret : Goes done (.ret k) .erased (.returned ret r)
  | bound : Goes done (.bound k) (.returned ret r) .bound

variable {s s' : Rpcc.State} {label : Rpcc.Label} {k : Nat} {ca : Caller}

theorem own_step (own : label.caller = some k) (taken : Rpcc.step s label = some s') :
    ∃ ca ca', s.callers[k]? = some ca ∧ s'.callers = s.callers.set k ca' ∧ ca'.done = ca.done ∧ ca'.intret = ca.intret ∧
      Goes ca.done label ca.pc ca'.pc ∧ ∀ ret r, ca'.pc = .returned ret r → (ret,r) = Rpcc.result ca := by
  obtain ⟨ca,held,taken⟩ := Rpcc.step_caller own taken
  refine ⟨ca,?_⟩
  cases label with
  | call | gotPdu | connDies => cases own
  | getRefconn n connects =>
    simp only [Rpcc.stepCaller,Option.ite_none_right_eq_some,Option.some.injEq] at taken
    obtain ⟨pc,rfl⟩ := taken
    exact ⟨_,held,rfl,rfl,rfl,pc ▸ .getRefconn,fun ret r now => by cases now⟩
  | send n =>
    simp only [Rpcc.stepCaller,Option.ite_none_right_eq_some,Option.some.injEq] at taken
    obtain ⟨pc,rfl⟩ := taken
    exact ⟨_,held,rfl,rfl,rfl,.send pc,fun ret r now => by cases now⟩
  | deadline n =>
    simp only [Rpcc.stepCaller,Option.ite_none_right_eq_some,Option.some.injEq] at taken
    obtain ⟨pc,rfl⟩ := taken
    exact ⟨_,held,rfl,rfl,rfl,pc ▸ .deadline,fun ret r now => by cases now⟩
  | await n =>
    simp only [Rpcc.stepCaller,Option.ite_none_right_eq_some,Option.some.injEq] at taken
    obtain ⟨pc,rfl⟩ := taken
    exact ⟨_,held,rfl,rfl,rfl,pc ▸ .await,fun ret r now => by cases now⟩
  | wake n =>
    simp only [Rpcc.stepCaller,Option.ite_none_right_eq_some,Option.some.injEq] at taken
    obtain ⟨⟨pc,done⟩,rfl⟩ := taken
    exact ⟨_,held,rfl,rfl,rfl,pc ▸ .wake done,fun ret r now => by cases now⟩
  | timeout n =>
    simp only [Rpcc.stepCaller,Option.ite_none_right_eq_some,Option.some.injEq] at taken
    obtain ⟨⟨pc,done⟩,rfl⟩ := taken
    exact ⟨_,held,rfl,rfl,rfl,pc ▸ .timeout done,fun ret r now => by cases now⟩
  | again n =>
    simp only [Rpcc.stepCaller,Option.ite_none_right_eq_some,Option.some.injEq] at taken
    obtain ⟨pc,rfl⟩ := taken
    exact ⟨_,held,rfl,rfl,rfl,pc ▸ .again,fun ret r now => by cases now⟩
  | finish n =>
    simp only [Rpcc.stepCaller,Option.ite_none_right_eq_some,Option.some.injEq] at taken
    obtain ⟨pc,rfl⟩ := taken
    exact ⟨_,held,rfl,rfl,rfl,pc ▸ .finish,fun ret r now => by cases now⟩
  | ret n =>
    simp only [Rpcc.stepCaller,Option.ite_none_right_eq_some,Option.some.injEq] at taken
    obtain ⟨pc,rfl⟩ := taken
    exact ⟨_,held,rfl,rfl,rfl,pc ▸ .ret,fun ret r now => by cases now; rfl⟩
  | bound n =>
    simp only [Rpcc.stepCaller,Option.ite_none_right_eq_some] at taken
    obtain ⟨_,taken⟩ := taken
    split at taken
    · cases taken
    · rename_i r finished
      cases Option.some.inj taken
      obtain ⟨_,pc,_⟩ := Rpcc.bindResult_some finished
      exact ⟨_,held,rfl,rfl,rfl,pc ▸ .bound,fun ret r now => by cases now⟩

theorem other_step (foreign : label.caller = none) (taken : Rpcc.step s label = some s') :
    s'.callers = s.callers ∨ (∃ ca, s'.callers = s.callers ++ [ca] ∧ ca.pc = .top true) ∨
    ∃ (j : Nat) (cb : Caller) (cb' : Caller), s.callers[j]? = some cb ∧ s'.callers = s.callers.set j cb' ∧ cb'.pc = cb.pc ∧
      cb.done = false ∧ cb'.done = true := by
  cases label with
  | call proc args ty junk =>
    cases Option.some.inj taken
    unfold Rpcc.call
    split
    · exact .inl rfl
    · exact .inr (.inl ⟨_,rfl,rfl⟩)
  | gotPdu pdu =>
    cases Option.some.inj taken
    by_cases good : (Unmarshall.ofPdu pdu).unpackReplyHeader.2.ok = true
    · obtain ⟨_,_,_,same | ⟨j,cb,_,held,open_,same⟩⟩ := CallTable.gotPdu_table (s:=s) good
      · exact .inl same
      · exact .inr (.inr ⟨j,cb,_,held,same,rfl,open_,rfl⟩)
    · exact .inl (by simp [Rpcc.gotPdu,good])
  | connDies c => cases Option.some.inj taken; exact .inl rfl
  | getRefconn | send | deadline | await | wake | timeout | again | finish | ret | bound => cases foreign

-- start + to in nanoseconds.
def Timer.limit (t : Timer) : Int := t.start.nanos + t.to_.toInt*1000000

structure Sound (t : Timer) : Prop where
  valid : t.start.Normalised
  positive : 0 < t.start.tvSec
  nonneg : 0 ≤ t.to_
  few : t.adds.length ≤ 22
  adds : ∀ (i : Nat) (b : Int32), t.adds[i]? = some b → b.toInt = 1000*2^i
  waits : ∀ d ∈ t.waits, d.nanos ≤ t.limit ∧ (d.Normalised ∨ addTimespec t.start t.to_ = some d)

def Timer.Open (t : Timer) : Prop := addTimespec t.start t.to_ = some t.finaldeadline

-- The first n waits are over: 1 + 2 + .. seconds.
def Timer.Waited (t : Timer) (n : Nat) (time : Int) : Prop := t.start.nanos + (2^n-1)*second ≤ time

-- call1 has returned, or is about to.
@[simp] def Over (pc : Pc) : Prop := (∃ ret r, pc = .returned ret r) ∨ pc = .bound
@[simp] def Leaving (pc : Pc) : Prop := pc = .ended ∨ pc = .erased ∨ Over pc

-- Where a thread stands in the loop. With an open final deadline pass n waits
-- for curr_to = 1000 * 2^(n-1), which stays an int because the sum of the waits
-- stays below to; the last pass waits for the final deadline itself.
inductive Phase (clock : Timespec) (t : Timer) (done : Bool) : Pc → Prop where
  | begun : pc = .top b ∨ pc = .sending → t.Open → t.adds.length = t.passes → t.passes ≤ 21 →
      t.currTo.toInt = 1000*2^t.passes → t.Waited t.passes clock.nanos → Phase clock t done pc
  | sent : t.Open → t.adds.length = n → t.passes = n+1 → n ≤ 21 → t.currTo.toInt = 1000*2^n → t.Waited n clock.nanos →
      Phase clock t done .sent
  | waiting : pc = .waiting ∨ (pc = .timedOut ∧ t.nextdeadline.nanos ≤ clock.nanos) → t.Open → t.adds.length = n+1 →
      t.passes = n+1 → n ≤ 20 → t.currTo.toInt = 1000*2^n → t.nextdeadline.Normalised →
      t.Waited (n+1) t.nextdeadline.nanos → t.nextdeadline.nanos ≤ t.limit → Phase clock t done pc
  | last : pc = .waiting ∨ ((pc = .timedOut ∨ pc = .top b ∨ pc = .sending) ∧ t.limit ≤ clock.nanos) →
      t.finaldeadline.tvSec = 0 → addTimespec t.start t.to_ = some t.nextdeadline → t.passes ≤ 22 → Phase clock t done pc
  | expired : t.finaldeadline.tvSec = 0 → t.limit ≤ clock.nanos → t.passes ≤ 23 → Phase clock t done .sent
  | ended : Leaving pc → t.passes ≤ 23 →
      (done = false → t.limit ≤ clock.nanos) → Phase clock t done pc

theorem Phase.later {clock now : Timespec} (phase : Phase clock t done pc) (later : clock.nanos ≤ now.nanos) :
    Phase now t done pc := by
  cases phase with
  | begun place open_ length few curr waited => exact .begun place open_ length few curr (Int.le_trans waited later)
  | sent open_ length passes few curr waited => exact .sent open_ length passes few curr (Int.le_trans waited later)
  | waiting place open_ length passes few curr normal waited within =>
    exact .waiting (place.imp_right fun out => ⟨out.1,Int.le_trans out.2 later⟩) open_ length passes few curr normal waited within
  | last place closed next few => exact .last (place.imp_right fun out => ⟨out.1,Int.le_trans out.2 later⟩) closed next few
  | expired closed reached few => exact .expired closed (Int.le_trans reached later) few
  | ended place few late => exact .ended place few fun open_ => Int.le_trans (late open_) later

theorem Phase.received (phase : Phase clock t false pc) : Phase clock t true pc := by
  cases phase with
  | begun place open_ length few curr waited => exact .begun place open_ length few curr waited
  | sent open_ length passes few curr waited => exact .sent open_ length passes few curr waited
  | waiting place open_ length passes few curr normal waited within =>
    exact .waiting place open_ length passes few curr normal waited within
  | last place closed next few => exact .last place closed next few
  | expired closed reached few => exact .expired closed reached few
  | ended place few late => exact .ended place few fun open_ => by cases open_

theorem Phase.passes_le (phase : Phase clock t done pc) : t.passes ≤ 23 := by
  cases phase <;> omega

theorem Sound.final (sound : Sound t) (open_ : t.Open) :
    t.finaldeadline.nanos = t.limit ∧ 0 ≤ t.finaldeadline.tvNsec ∧ 0 < t.finaldeadline.tvSec := by
  obtain ⟨r,added,value⟩ := addTimespec_nanos sound.valid sound.nonneg
  cases Option.some.inj (added.symm.trans open_)
  obtain ⟨low,_,sec⟩ := addTimespec_bounded sound.valid sound.nonneg open_
  exact ⟨value,low,Int.lt_of_lt_of_le sound.positive sec⟩

theorem power_bound {n : Nat} (few : n ≤ 21) : (0 : Int) < 2^n ∧ (2 : Int)^n ≤ 2097152 := by
  refine ⟨Int.pow_pos (by decide),?_⟩
  have grows : (2 : Int)^n ≤ 2^21 := pow_le_pow_right₀ (by decide) few
  exact grows

theorem next_deadline {t : Timer} {clock : Timespec} {n : Nat} (valid : clock.Normalised) (few : n ≤ 21) (curr : t.currTo.toInt = 1000*2^n) :
    ∃ next, addTimespec clock t.currTo = some next ∧ next.Normalised ∧ next.nanos = clock.nanos + 2^n*second := by
  obtain ⟨positive,_⟩ := power_bound few
  have nonneg : 0 ≤ t.currTo := Int32.le_iff_toInt_le.mpr (by rw [curr]; exact Int.mul_nonneg (by decide) (Int.le_of_lt positive))
  obtain ⟨next,added,value⟩ := addTimespec_nanos valid nonneg
  have whole : sum clock t.currTo = clock.tvNsec := by
    simp only [sum,curr,Int.mul_emod_right]
    omega
  have normal := (addTimespec_normalised_iff valid nonneg added).mpr (by rw [whole]; exact Int.ne_of_lt valid.2)
  refine ⟨next,added,normal,?_⟩
  rw [value,curr]
  simp only [second]
  omega

theorem await_sound {clock : Timespec} {n : Nat} (sound : Sound t) (valid : clock.Normalised) (open_ : t.Open)
    (length : t.adds.length = n) (passes : t.passes = n+1) (few : n ≤ 21) (curr : t.currTo.toInt = 1000*2^n)
    (waited : t.Waited n clock.nanos) (set : setDeadline clock t = some t') :
    Sound t' ∧ Phase clock t' done .waiting := by
  obtain ⟨next,added,normal,value⟩ := next_deadline valid few curr
  obtain ⟨final,low,_⟩ := sound.final open_
  have adds : ∀ (i : Nat) (b : Int32), (t.adds ++ [t.currTo])[i]? = some b → b.toInt = 1000*2^i := by
    intro i b held
    rcases Machine.entry_append held with old | ⟨rfl,rfl⟩
    · exact sound.adds i b old
    · rw [length]; exact curr
  have counted : (t.adds ++ [t.currTo]).length = n+1 := by rw [List.length_append,length]; rfl
  simp only [setDeadline,added,Option.map_some,Option.some.injEq] at set
  split at set
  · subst set
    refine ⟨⟨sound.valid,sound.positive,sound.nonneg,by rw [counted]; omega,adds,?_⟩,?_⟩
    · intro d member
      rcases List.mem_append.mp member with old | new
      · exact sound.waits d old
      · cases List.mem_singleton.mp new
        exact ⟨Int.le_of_eq final,.inr open_⟩
    · exact .last (b:=true) (.inl rfl) rfl open_ (by dsimp only; omega)
  · rename_i earlier
    subst set
    have within : next.nanos ≤ t.limit := final ▸ not_later normal low earlier
    -- The waits so far and this one fit into an int of milliseconds.
    have fits := Int32.toInt_lt t.to_
    have small : n ≤ 20 := by
      by_contra large
      obtain rfl : n = 21 := by omega
      simp only [Timer.Waited,Timer.limit,second] at waited within value
      omega
    have next_waited : t.Waited (n+1) next.nanos := by
      simp only [Timer.Waited] at waited ⊢
      rw [value,Int.pow_succ]
      simp only [second] at waited ⊢
      omega
    refine ⟨⟨sound.valid,sound.positive,sound.nonneg,by rw [counted]; omega,adds,?_⟩,?_⟩
    · intro d member
      rcases List.mem_append.mp member with old | new
      · exact sound.waits d old
      · cases List.mem_singleton.mp new
        exact ⟨within,.inl normal⟩
    · exact .waiting (.inl rfl) open_ counted passes small curr normal next_waited within

theorem own_sound {clock : Timespec} (sound : Sound t) (valid : clock.Normalised) (phase : Phase clock t done pc)
    (goes : Goes done label pc pc') (allowed : advance clock t label = some t') :
    Sound t' ∧ Phase clock t' done pc' := by
  cases goes with
  | getRefconn =>
    cases allowed
    refine ⟨sound,?_⟩
    cases phase with
    | begun place open_ length few curr waited => exact .begun (b:=true) (.inr rfl) open_ length few curr waited
    | waiting place | ended place => simp at place
    | last place closed next few =>
      have reached := (place.resolve_left (by simp)).2
      exact .last (b:=true) (.inr ⟨.inr (.inr rfl),reached⟩) closed next few
  | send place =>
    cases allowed
    refine ⟨⟨sound.valid,sound.positive,sound.nonneg,sound.few,sound.adds,sound.waits⟩,?_⟩
    cases phase with
    | begun _ open_ length few curr waited => exact .sent open_ length rfl few curr waited
    | sent | expired => simp at place
    | waiting other | ended other =>
      rcases place with rfl | rfl <;> simp at other
    | last other closed next few =>
      have reached := (other.resolve_left (by rcases place with rfl | rfl <;> simp)).2
      exact .expired closed reached (by dsimp only; omega)
  | deadline =>
    obtain ⟨closed,same⟩ := Option.ite_none_right_eq_some.mp allowed
    cases same
    refine ⟨sound,?_⟩
    cases phase with
    | begun place | waiting place | last place | ended place => simp at place
    | sent open_ =>
      obtain ⟨_,_,positive⟩ := sound.final open_
      omega
    | expired _ reached few => exact .ended (.inl rfl) few (fun _ => reached)
  | await =>
    obtain ⟨opened,set⟩ := Option.ite_none_left_eq_some.mp allowed
    cases phase with
    | begun place | waiting place | last place | ended place => simp at place
    | sent open_ length passes few curr waited => exact await_sound sound valid open_ length passes few curr waited set
    | expired closed => exact absurd closed opened
  | wake received =>
    cases allowed
    exact ⟨sound,.ended (.inl rfl) phase.passes_le (fun open_ => by rw [received] at open_; cases open_)⟩
  | timeout =>
    obtain ⟨expired,same⟩ := Option.ite_none_right_eq_some.mp allowed
    cases same
    refine ⟨sound,?_⟩
    cases phase with
    | begun place | ended place => simp at place
    | waiting place open_ length passes few curr normal waited within =>
      exact .waiting (.inr ⟨rfl,expired.2⟩) open_ length passes few curr normal waited within
    | last place closed next few =>
      obtain ⟨r,added,value⟩ := addTimespec_nanos sound.valid sound.nonneg
      cases Option.some.inj (added.symm.trans next)
      exact .last (b:=true) (.inr ⟨.inl rfl,Int.le_trans (Int.le_of_eq value.symm) expired.2⟩) closed next few
  | again =>
    cases allowed
    refine ⟨⟨sound.valid,sound.positive,sound.nonneg,sound.few,sound.adds,sound.waits⟩,?_⟩
    cases phase with
    | begun place | ended place => simp at place
    | @waiting _ n place open_ length passes few curr normal waited within =>
      have reached := (place.resolve_left (by simp)).2
      obtain ⟨positive,_⟩ := power_bound (n:=n) (by omega)
      have bounded : (2 : Int)^n ≤ 2^20 := pow_le_pow_right₀ (by decide) few
      have doubled := shifted_toInt (c:=t.currTo) (by omega) (by omega)
      refine .begun (.inl rfl) open_ (by rw [length,passes]) (by dsimp only; omega) ?_ ?_
      · dsimp only
        rw [doubled,curr,passes,Int.pow_succ]
        omega
      · rw [← passes] at waited
        exact Int.le_trans waited reached
    | last place closed next few =>
      have reached := (place.resolve_left (by simp)).2
      exact .last (.inr ⟨.inr (.inl rfl),reached⟩) closed next few
  | finish =>
    cases allowed
    refine ⟨sound,?_⟩
    cases phase with
    | begun place | waiting place | last place => simp at place
    | ended _ few late => exact .ended (.inr (.inl rfl)) few late
  | ret =>
    cases allowed
    refine ⟨sound,?_⟩
    cases phase with
    | begun place | waiting place | last place => simp at place
    | ended _ few late => exact .ended (.inr (.inr (.inl ⟨_,_,rfl⟩))) few late
  | bound =>
    cases allowed
    refine ⟨sound,?_⟩
    cases phase with
    | begun place | waiting place | last place => simp at place
    | ended _ few late => exact .ended (.inr (.inr (.inr rfl))) few late

def rank (passes : Nat) : Pc → Nat
  | .top true => 6*(23-passes)+4
  | .top false | .sending => 6*(23-passes)+3
  | .sent => 6*(23-passes)+8
  | .waiting => 6*(23-passes)+7
  | .timedOut => 6*(23-passes)+6
  | .ended => 3
  | .erased => 2
  | .returned _ _ => 1
  | .bound => 0

theorem setDeadline_passes {clock : Timespec} (set : setDeadline clock t = some t') : t'.passes = t.passes := by
  obtain ⟨next,_,same⟩ := Option.map_eq_some_iff.mp set
  split at same <;> cases same <;> rfl

theorem Phase.begins {clock : Timespec} (phase : Phase clock t done pc) (place : pc = .sending ∨ pc = .top false) :
    t.passes ≤ 22 := by
  cases phase with
  | begun _ _ _ few => omega
  | last _ _ _ few => exact few
  | waiting other | ended other => rcases place with rfl | rfl <;> simp at other
  | sent | expired => simp at place

theorem own_rank {clock : Timespec} (phase : Phase clock t done pc) (goes : Goes done label pc pc')
    (allowed : advance clock t label = some t') : rank t'.passes pc' < rank t.passes pc := by
  cases goes with
  | send place =>
    have few := phase.begins place
    cases allowed
    rcases place with rfl | rfl <;> simp only [rank] <;> omega
  | await =>
    obtain ⟨_,set⟩ := Option.ite_none_left_eq_some.mp allowed
    rw [setDeadline_passes set]
    simp [rank]
  | deadline | timeout =>
    obtain ⟨_,same⟩ := Option.ite_none_right_eq_some.mp allowed
    cases same
    simp only [rank]
    omega
  | @again k transmit =>
    cases allowed
    cases transmit <;> simp only [rank] <;> omega
  | getRefconn | wake | finish | ret | bound => cases allowed; simp only [rank]; omega

-- A call that has a timer, with its place in the loop and its steps so far.
def Timely (s : State) (k : Nat) (t : Timer) : Prop :=
  Sound t ∧ ∃ ca, s.client.callers[k]? = some ca ∧ Phase s.clock t ca.done ca.pc ∧ s.work k + rank t.passes ca.pc ≤ 142

structure Invariant (s : State) : Prop where
  clock : s.clock.Normalised ∧ 0 < s.clock.tvSec
  timed : ∀ k t, s.timers k = some t → Timely s k t
  untimed : ∀ k, s.timers k = none → s.work k = 0 ∧ ∀ ca, s.client.callers[k]? = some ca → ca.pc = .top true

def NonNegative (_ : State) : Label → Prop
  | .start _ to_ => 0 ≤ to_
  | _ => True

-- The timeouts of the callers in the tree.
def WholeSeconds (_ : State) : Label → Prop
  | .start _ to_ => 0 ≤ to_ ∧ to_%1000 = 0
  | _ => True

theorem initial_invariant (cltNonce : UInt32) (retrans : Bool) {clock : Timespec} (valid : clock.Normalised)
    (positive : 0 < clock.tvSec) : Invariant (initial cltNonce retrans clock) :=
  ⟨⟨valid,positive⟩,by simp [initial],by simp [initial,Rpcc.initial]⟩

section Step
variable {s s' : State} {label : Label}

theorem tick_invariant (valid : Invariant s) (taken : step s (.tick now) = some s') : Invariant s' := by
  obtain ⟨⟨normal,later⟩,same⟩ := Option.ite_none_right_eq_some.mp taken
  cases same
  obtain ⟨⟨_,high⟩,positive⟩ := valid.clock
  refine ⟨⟨normal,?_⟩,fun k t timed => ?_,valid.untimed⟩
  · obtain ⟨low,below⟩ := normal
    obtain ⟨above,_⟩ := valid.clock.1
    simp only [nanos,second] at later high below
    dsimp only
    omega
  · obtain ⟨sound,ca,held,phase,rank⟩ := valid.timed k t timed
    exact ⟨sound,ca,held,phase.later later,rank⟩

theorem start_invariant (valid : Invariant s) (nonneg : 0 ≤ to_) (taken : step s (.start k to_) = some s') : Invariant s' := by
  obtain ⟨⟨fresh,bound⟩,begun⟩ := Option.ite_none_right_eq_some.mp taken
  obtain ⟨t,began,same⟩ := Option.map_eq_some_iff.mp begun
  cases same
  obtain ⟨final,added,rfl⟩ := Option.map_eq_some_iff.mp began
  obtain ⟨idle,top⟩ := valid.untimed k (Option.isNone_iff_eq_none.mp fresh)
  refine ⟨valid.clock,fun j t timed => ?_,fun j absent => ?_⟩ <;> dsimp only at *
  · by_cases same : j = k
    · subst same
      rw [Function.update_self] at timed
      cases timed
      have held := List.getElem?_eq_getElem bound
      refine ⟨⟨valid.clock.1,valid.clock.2,nonneg,Nat.zero_le _,by simp,by simp⟩,_,held,?_,?_⟩
      · exact .begun (.inl (top _ held)) added rfl (Nat.zero_le _) rfl (by simp [Timer.Waited])
      · rw [top _ held,idle]
        simp [rank]
    · rw [Function.update_of_ne same] at timed
      exact valid.timed j t timed
  · by_cases same : j = k
    · subst same
      rw [Function.update_self] at absent
      cases absent
    · rw [Function.update_of_ne same] at absent
      exact valid.untimed j absent

structure OwnStep (s s' : State) (k : Nat) (t t' : Timer) (ca ca' : Caller) (label : Rpcc.Label) : Prop where
  timed : s.timers k = some t
  held : s.client.callers[k]? = some ca
  allowed : advance s.clock t label = some t'
  goes : Goes ca.done label ca.pc ca'.pc
  done : ca'.done = ca.done
  clock : s'.clock = s.clock
  timers : s'.timers = Function.update s.timers k (some t')
  work : s'.work = Function.update s.work k (s.work k+1)
  callers : s'.client.callers = s.client.callers.set k ca'

theorem own_cases {label : Rpcc.Label} (own : label.caller = some k) (taken : step s (.client label) = some s') :
    ∃ t t' ca ca', OwnStep s s' k t t' ca ca' label := by
  simp only [step,own] at taken
  split at taken
  · cases taken
  · rename_i t timed
    split at taken
    · cases taken
    · rename_i t' allowed
      obtain ⟨client,moved,same⟩ := Option.map_eq_some_iff.mp taken
      cases same
      obtain ⟨ca,ca',held,callers,done,_,goes,_⟩ := own_step own moved
      exact ⟨t,t',ca,ca',timed,held,allowed,goes,done,rfl,rfl,rfl,callers⟩

theorem own_invariant (valid : Invariant s) {label : Rpcc.Label} (own : label.caller = some k)
    (taken : step s (.client label) = some s') : Invariant s' := by
  obtain ⟨t,t',ca,ca',way⟩ := own_cases own taken
  obtain ⟨sound,cb,found,phase,steps⟩ := valid.timed k t way.timed
  cases Option.some.inj (way.held.symm.trans found)
  obtain ⟨sound',phase'⟩ := own_sound sound valid.clock.1 phase way.goes way.allowed
  have less := own_rank phase way.goes way.allowed
  refine ⟨way.clock ▸ valid.clock,fun j u timed' => ?_,fun j absent => ?_⟩
  · rw [way.timers] at timed'
    by_cases same : j = k
    · subst same
      rw [Function.update_self] at timed'
      cases timed'
      refine ⟨sound',ca',by rw [way.callers]; exact Machine.entry_self way.held,by rw [way.done,way.clock]; exact phase',?_⟩
      rw [way.work,Function.update_self]
      omega
    · rw [Function.update_of_ne same] at timed'
      obtain ⟨sound,cb,found,phase,steps⟩ := valid.timed j u timed'
      refine ⟨sound,cb,by rw [way.callers,Machine.entry_other same]; exact found,way.clock ▸ phase,?_⟩
      rw [way.work,Function.update_of_ne same]
      exact steps
  · rw [way.timers] at absent
    by_cases same : j = k
    · subst same
      rw [Function.update_self] at absent
      cases absent
    · rw [Function.update_of_ne same] at absent
      rw [way.work,Function.update_of_ne same,way.callers,Machine.entry_other same]
      exact valid.untimed j absent

theorem other_invariant (valid : Invariant s) {label : Rpcc.Label} (foreign : label.caller = none)
    (taken : step s (.client label) = some s') : Invariant s' := by
  simp only [step,foreign] at taken
  obtain ⟨client,moved,same⟩ := Option.map_eq_some_iff.mp taken
  cases same
  have kept : ∀ (k : Nat) (ca : Caller), s.client.callers[k]? = some ca → ∃ ca', client.callers[k]? = some ca' ∧
      ca'.pc = ca.pc ∧ (ca'.done = ca.done ∨ (ca.done = false ∧ ca'.done = true)) := by
    intro k ca held
    rcases other_step foreign moved with same | ⟨_,same,_⟩ | ⟨j,cb,cb',found,same,pc,before,after⟩ <;> rw [same]
    · exact ⟨ca,held,rfl,.inl rfl⟩
    · exact ⟨ca,Machine.entry_kept held,rfl,.inl rfl⟩
    · by_cases at_ : k = j
      · subst at_
        cases Option.some.inj (held.symm.trans found)
        exact ⟨cb',Machine.entry_self found,pc,.inr ⟨before,after⟩⟩
      · exact ⟨ca,(Machine.entry_other at_).trans held,rfl,.inl rfl⟩
  refine ⟨valid.clock,fun k t timed => ?_,fun k absent => ⟨(valid.untimed k absent).1,fun ca' held => ?_⟩⟩ <;> dsimp only at *
  · obtain ⟨sound,ca,held,phase,steps⟩ := valid.timed k t timed
    obtain ⟨ca',held',pc,done⟩ := kept k ca held
    refine ⟨sound,ca',held',?_,pc ▸ steps⟩
    rw [pc]
    rcases done with same | ⟨before,after⟩
    · exact same ▸ phase
    · rw [before] at phase
      exact after ▸ phase.received
  · rcases other_step foreign moved with same | ⟨cb,same,top⟩ | ⟨j,cb,cb',found,same,pc,_,_⟩ <;> rw [same] at held
    · exact (valid.untimed k absent).2 ca' held
    · rcases Machine.entry_append held with old | ⟨_,rfl⟩
      · exact (valid.untimed k absent).2 ca' old
      · exact top
    · rcases Machine.entry_cases held with ⟨rfl,rfl⟩ | ⟨_,old⟩
      · exact pc.trans ((valid.untimed k absent).2 cb found)
      · exact (valid.untimed k absent).2 ca' old

theorem step_invariant (valid : Invariant s) (nonneg : NonNegative s label) (taken : step s label = some s') :
    Invariant s' := by
  cases label with
  | tick now => exact tick_invariant valid taken
  | start k to_ => exact start_invariant valid nonneg taken
  | spurious k =>
    obtain ⟨_,same⟩ := Option.ite_none_right_eq_some.mp taken
    cases same
    exact valid
  | client label =>
    cases own : label.caller with
    | none => exact other_invariant valid own taken
    | some k => exact own_invariant valid own taken

theorem runs_invariant {clock : Timespec} (valid : clock.Normalised) (positive : 0 < clock.tvSec)
    (path : Machine.Runs step NonNegative (initial cltNonce retrans clock) labels s) : Invariant s :=
  path.invariant (initial_invariant cltNonce retrans valid positive) (fun _ _ _ held nonneg taken => step_invariant held nonneg taken)

def Waits (s : State) (t : Timer) (ca : Caller) : Prop :=
  ca.pc = .waiting ∧ ca.done = false ∧ s.clock.nanos < t.nextdeadline.nanos ∧ t.nextdeadline.nanos ≤ t.limit

def Whole (t : Timer) : Prop := t.to_%1000 = 0

theorem whole_normalised (sound : Sound t) (whole : Whole t) (added : addTimespec t.start t.to_ = some r) : r.Normalised := by
  refine (addTimespec_normalised_iff sound.valid sound.nonneg added).mpr ?_
  have rest : t.to_.toInt%1000 = 0 := by
    rw [← rest_toInt sound.nonneg,whole]
    rfl
  have below := sound.valid.2
  simp only [sum,rest]
  omega

theorem enabled {label : Rpcc.Label} (timed : s.timers k = some t) (held : s.client.callers[k]? = some ca)
    (own : label.caller = some k) (allowed : advance s.clock t label = some t')
    (moves : Rpcc.stepCaller s.client k ca label = some client) :
    ∃ s', step s (.client label) = some s' := by
  have moved : Rpcc.step s.client label = some client := by
    cases label <;> simp_all [Rpcc.step,Rpcc.Label.caller]
  exact ⟨{s with client:=client,timers:=Function.update s.timers k (some t'),work:=Function.update s.work k (s.work k+1)},
    by simp only [step,own,timed,allowed,moved,Option.map_some]⟩

theorem progress (valid : Invariant s) (timed : s.timers k = some t) (whole : Whole t) :
    ∃ ca, s.client.callers[k]? = some ca ∧
      (Over ca.pc ∨ Waits s t ca ∨ ∃ label s', label.caller = some k ∧ step s (.client label) = some s') := by
  obtain ⟨sound,ca,held,phase,_⟩ := valid.timed k t timed
  refine ⟨ca,held,?_⟩
  -- The steps that wait for nothing.
  have goes : ∀ (label : Rpcc.Label) t' client, label.caller = some k → advance s.clock t label = some t' →
      Rpcc.stepCaller s.client k ca label = some client →
      Over ca.pc ∨ Waits s t ca ∨ ∃ label s', label.caller = some k ∧ step s (.client label) = some s' := by
    intro label t' client own allowed moves
    obtain ⟨s',taken⟩ := enabled timed held own allowed moves
    exact .inr (.inr ⟨label,s',own,taken⟩)
  cases at_ : ca.pc with
  | top transmit =>
    rw [← at_]
    cases transmit with
    | true => exact goes (.getRefconn k true) _ _ rfl rfl (if_pos at_)
    | false => exact goes (.send k) _ _ rfl rfl (if_pos (.inr at_))
  | sending => rw [← at_]; exact goes (.send k) _ _ rfl rfl (if_pos (.inl at_))
  | sent =>
    rw [at_] at phase
    rw [← at_]
    by_cases closed : t.finaldeadline.tvSec = 0
    · exact goes (.deadline k) _ _ rfl (if_pos closed) (if_pos at_)
    · cases phase with
      | begun place | waiting place | last place | ended place => simp at place
      | expired shut => exact absurd shut closed
      | sent _ _ _ few curr _ =>
        obtain ⟨next,added,_⟩ := next_deadline valid.clock.1 few curr
        have allowed : ∃ t', setDeadline s.clock t = some t' := by
          simp only [setDeadline,added,Option.map_some]
          exact ⟨_,rfl⟩
        obtain ⟨t',set⟩ := allowed
        exact goes (.await k) t' _ rfl ((if_neg closed).trans set) (if_pos at_)
  | waiting =>
    rw [at_] at phase
    rw [← at_]
    cases received : ca.done with
    | true => exact goes (.wake k) _ _ rfl rfl (if_pos ⟨at_,received⟩)
    | false =>
      have next : t.nextdeadline.Normalised ∧ t.nextdeadline.nanos ≤ t.limit := by
        cases phase with
        | begun place | ended place => simp at place
        | waiting _ _ _ _ _ _ normal _ within => exact ⟨normal,within⟩
        | last _ _ added _ =>
          obtain ⟨r,again,value⟩ := addTimespec_nanos sound.valid sound.nonneg
          cases Option.some.inj (again.symm.trans added)
          exact ⟨whole_normalised sound whole added,Int.le_of_eq value⟩
      by_cases reached : t.nextdeadline.nanos ≤ s.clock.nanos
      · exact goes (.timeout k) _ _ rfl (if_pos ⟨next.1,reached⟩) (if_pos ⟨at_,received⟩)
      · exact .inr (.inl ⟨at_,received,Int.not_le.mp reached,next.2⟩)
  | timedOut => rw [← at_]; exact goes (.again k) _ _ rfl rfl (if_pos at_)
  | ended => rw [← at_]; exact goes (.finish k) _ _ rfl rfl (if_pos at_)
  | erased => rw [← at_]; exact goes (.ret k) _ _ rfl rfl (if_pos at_)
  | returned ret r => exact .inl (.inl ⟨ret,r,rfl⟩)
  | bound => exact .inl (.inr rfl)

theorem advance_keeps {clock : Timespec} {label : Rpcc.Label} (allowed : advance clock t label = some t') :
    t'.to_ = t.to_ ∧ t'.start = t.start := by
  cases label with
  | deadline | timeout =>
    obtain ⟨_,same⟩ := Option.ite_none_right_eq_some.mp allowed
    cases same
    exact ⟨rfl,rfl⟩
  | await =>
    obtain ⟨_,set⟩ := Option.ite_none_left_eq_some.mp allowed
    obtain ⟨next,_,same⟩ := Option.map_eq_some_iff.mp set
    split at same <;> cases same <;> exact ⟨rfl,rfl⟩
  | call | getRefconn | send | wake | again | finish | ret | bound | gotPdu | connDies => cases allowed; exact ⟨rfl,rfl⟩

theorem step_whole (valid : ∀ k t, s.timers k = some t → Whole t) (seconds : WholeSeconds s label)
    (taken : step s label = some s') : ∀ k t, s'.timers k = some t → Whole t := by
  intro k t timed
  cases label with
  | tick now =>
    obtain ⟨_,same⟩ := Option.ite_none_right_eq_some.mp taken
    cases same
    exact valid k t timed
  | spurious j =>
    obtain ⟨_,same⟩ := Option.ite_none_right_eq_some.mp taken
    cases same
    exact valid k t timed
  | start j to_ =>
    obtain ⟨_,begun⟩ := Option.ite_none_right_eq_some.mp taken
    obtain ⟨began,fresh,same⟩ := Option.map_eq_some_iff.mp begun
    cases same
    obtain ⟨final,_,rfl⟩ := Option.map_eq_some_iff.mp fresh
    dsimp only at timed
    by_cases at_ : k = j
    · rw [at_,Function.update_self] at timed
      cases timed
      exact seconds.2
    · rw [Function.update_of_ne at_] at timed
      exact valid k t timed
  | client label =>
    cases own : label.caller with
    | none =>
      simp only [step,own] at taken
      obtain ⟨client,_,same⟩ := Option.map_eq_some_iff.mp taken
      cases same
      exact valid k t timed
    | some j =>
      obtain ⟨u,u',ca,ca',way⟩ := own_cases own taken
      rw [way.timers] at timed
      by_cases at_ : k = j
      · rw [at_,Function.update_self] at timed
        cases timed
        rw [Whole,(advance_keeps way.allowed).1]
        exact valid j u way.timed
      · rw [Function.update_of_ne at_] at timed
        exact valid k t timed

def Own (k : Nat) (_ : State) : Label → Prop
  | .client label => label.caller = some k
  | _ => False

theorem returns (valid : Invariant s) (timed : s.timers k = some t) (whole : Whole t) (late : t.limit ≤ s.clock.nanos) :
    ∃ more s' ca, Machine.Runs step (Own k) s more s' ∧ s'.client.callers[k]? = some ca ∧ Over ca.pc := by
  obtain ⟨cb,found⟩ : ∃ cb, s.client.callers[k]? = some cb := by
    obtain ⟨_,cb,found,_⟩ := valid.timed k t timed
    exact ⟨cb,found⟩
  induction bound : rank t.passes cb.pc using Nat.strongRecOn generalizing s t cb with
  | ind n ih =>
    obtain ⟨ca,held,expired | ⟨_,_,early,within⟩ | ⟨label,s',own,taken⟩⟩ := progress valid timed whole
    · exact ⟨[],s,ca,.nil,held,expired⟩
    · omega
    · obtain ⟨u,u',cc,cc',way⟩ := own_cases own taken
      cases Option.some.inj (timed.symm.trans way.timed)
      cases Option.some.inj (found.symm.trans way.held)
      obtain ⟨_,cd,again,phase,_⟩ := valid.timed k t timed
      cases Option.some.inj (found.symm.trans again)
      have less := own_rank phase way.goes way.allowed
      obtain ⟨to_,start⟩ := advance_keeps way.allowed
      have limit : u'.limit = t.limit := by rw [Timer.limit,to_,start,Timer.limit]
      obtain ⟨more,s'',ca',path,final,expired⟩ := ih _ (bound ▸ less) (own_invariant valid own taken)
        (by rw [way.timers,Function.update_self]) (by rw [Whole,to_]; exact whole) (by rw [limit,way.clock]; exact late)
        cc' (by rw [way.callers]; exact Machine.entry_self way.held) rfl
      have first : Machine.Runs step (Own k) s [.client label] s' := .single own taken
      exact ⟨[.client label] ++ more,s'',ca',first.append path,final,expired⟩

theorem timeoutFailure_result (ca : Caller) (failed : (Rpcc.result ca).1 = RpcConst.timeoutFailure) :
    ca.done = false ∨ ca.intret = RpcConst.timeoutFailure := by
  cases done : ca.done with
  | false => exact .inl rfl
  | true =>
    refine .inr ?_
    simp only [Rpcc.result,done,if_true] at failed
    split at failed
    · exact failed
    · rename_i positive
      split at failed
      · exact failed
      · cases failed

theorem call1_returns_on_time {clock : Timespec} (valid : clock.Normalised) (positive : 0 < clock.tvSec)
    (path : Machine.Runs step WholeSeconds (initial cltNonce retrans clock) labels s) (k : Nat) (t : Timer)
    (timed : s.timers k = some t) :
    ∃ ca, s.client.callers[k]? = some ca ∧ t.passes ≤ 23 ∧
      (∀ (i : Nat) (b : Int32), t.adds[i]? = some b → 0 < b ∧ b.toInt = 1000*2^i) ∧
      (∀ deadline ∈ t.waits, deadline.nanos ≤ t.start.nanos + t.to_.toInt*1000000) ∧
      (ca.pc = .erased → (Rpcc.result ca).1 = RpcConst.timeoutFailure →
        (ca.done = false ∧ t.start.nanos + t.to_.toInt*1000000 ≤ s.clock.nanos) ∨
          (ca.done = true ∧ ca.intret = RpcConst.timeoutFailure)) ∧
      s.work k ≤ 142 ∧
      (Over ca.pc ∨ Waits s t ca ∨ ∃ label s', label.caller = some k ∧ step s (.client label) = some s') ∧
      (t.start.nanos + t.to_.toInt*1000000 ≤ s.clock.nanos →
        ∃ more s' ca', Machine.Runs step (Own k) s more s' ∧ s'.client.callers[k]? = some ca' ∧ Over ca'.pc) := by
  have nonneg : Machine.Runs step NonNegative (initial cltNonce retrans clock) labels s :=
    path.weaken fun _ label seconds => by cases label <;> first | trivial | exact seconds.1
  have all := runs_invariant valid positive nonneg
  have whole : ∀ k t, s.timers k = some t → Whole t :=
    path.invariant (by simp [initial]) (fun _ _ _ held seconds taken => step_whole held seconds taken)
  obtain ⟨ca,held,moves⟩ := progress all timed (whole k t timed)
  obtain ⟨sound,cb,found,phase,steps⟩ := all.timed k t timed
  cases Option.some.inj (held.symm.trans found)
  refine ⟨ca,held,phase.passes_le,fun i b added => ?_,fun d member => (sound.waits d member).1,fun pc failed => ?_,by omega,
    moves,returns all timed (whole k t timed)⟩
  · have value := sound.adds i b added
    refine ⟨Int32.lt_iff_toInt_lt.mpr ?_,value⟩
    rw [value]
    exact Int.mul_pos (by decide) (Int.pow_pos (by decide))
  · cases done : ca.done with
    | true => exact .inr ⟨rfl,(timeoutFailure_result ca failed).resolve_left (by simp [done])⟩
    | false =>
      rw [pc] at phase
      cases phase with
      | begun place | waiting place | last place => simp at place
      | ended _ _ late => exact .inl ⟨rfl,late done⟩

end Step

-- A call with a timeout of one second that cannot connect. The first wait ends
-- at the final deadline, so there is a second wait for it and a third pass.
def unanswered : List Label :=
  [.client (.call 1 [.int 0] .int (fun _ => 0)),.start 0 1000,.client (.getRefconn 0 false),.client (.send 0),.client (.await 0),
    .tick ⟨101,500⟩,.client (.timeout 0),.client (.again 0),.client (.getRefconn 0 false),.client (.send 0),.client (.await 0),
    .spurious 0,.client (.timeout 0),.client (.again 0),.client (.getRefconn 0 false),.client (.send 0),.client (.deadline 0),
    .client (.finish 0)]

theorem unanswered_returns :
    ∃ s t, Machine.Runs step WholeSeconds (initial 7 true ⟨100,500⟩) unanswered s ∧ s.timers 0 = some t ∧
      t.passes = 3 ∧ t.waits = [⟨101,500⟩,⟨101,500⟩] ∧
      ∃ more s' ca', Machine.Runs step (Own 0) s more s' ∧ s'.client.callers[0]? = some ca' ∧ Over ca'.pc := by
  have ran : (Machine.exec step (initial 7 true ⟨100,500⟩) unanswered).map (fun s => (s.timers 0,s.clock)) =
      some (some ⟨1000,4000,⟨101,500⟩,⟨0,500⟩,⟨100,500⟩,3,[1000,2000],[⟨101,500⟩,⟨101,500⟩]⟩,⟨101,500⟩) := by decide +kernel
  have run : ∃ s, Machine.Runs step WholeSeconds (initial 7 true ⟨100,500⟩) unanswered s ∧ (s.timers 0,s.clock) = _ :=
    Machine.exec_observed ran (by simp [unanswered,WholeSeconds])
  obtain ⟨s,path,seen⟩ := run
  obtain ⟨timed,clock⟩ := Prod.mk.inj seen
  obtain ⟨_,_,_,_,_,_,_,_,finally_⟩ := call1_returns_on_time (by decide) (by decide) path 0 _ timed
  exact ⟨s,_,path,timed,rfl,rfl,finally_ (by rw [clock]; decide)⟩

-- What call1 may be told to wait for when it starts at a with timeout b.
def WaitsNormalised (a : Timespec) (b : Int32) : Prop :=
  ∀ cltNonce retrans (clock : Timespec) labels s (k : Nat) (t : Timer), clock.Normalised → 0 < clock.tvSec →
    Machine.Runs step NonNegative (initial cltNonce retrans clock) labels s → s.timers k = some t →
    t.start = a → t.to_ = b → ∀ deadline ∈ t.waits, deadline.Normalised

theorem goes_on {s : State} (label : Rpcc.Label) (timed : s.timers k = some t) (held : s.client.callers[k]? = some ca)
    (own : label.caller = some k) (allowed : advance s.clock t label = some t')
    (moves : Rpcc.stepCaller s.client k ca label = some client) :
    ∃ s' ca', step s (.client label) = some s' ∧ s'.clock = s.clock ∧ s'.timers k = some t' ∧
      s'.client.callers[k]? = some ca' ∧ Goes ca.done label ca.pc ca'.pc := by
  obtain ⟨s',taken⟩ := enabled timed held own allowed moves
  obtain ⟨u,u',cb,cb',way⟩ := own_cases own taken
  cases Option.some.inj (timed.symm.trans way.timed)
  cases Option.some.inj (held.symm.trans way.held)
  cases Option.some.inj (allowed.symm.trans way.allowed)
  exact ⟨s',cb',taken,way.clock,by rw [way.timers,Function.update_self],by rw [way.callers]; exact Machine.entry_self held,way.goes⟩

theorem final_waited {a now : Timespec} {b : Int32} (nonneg : 0 ≤ b) (begins : addTimespec a b = some final)
    (open_ : final.tvSec ≠ 0) (normal : now.Normalised) (later : a.nanos ≤ now.nanos)
    (behind : addTimespec now toMin = some next) (greater : cmpTimespec next final > 0) :
    ∃ labels s t, Machine.Runs step NonNegative (initial 7 true a) labels s ∧ s.timers 0 = some t ∧
      t.start = a ∧ t.to_ = b ∧ final ∈ t.waits := by
  let t0 : Timer := ⟨b,toMin,⟨0,0⟩,final,a,0,[],[]⟩
  let s1 : State := {initial 7 true a with client:=Rpcc.call (Rpcc.initial 7 true) 1 [] .int (fun _ => 0)}
  let s2 : State := {s1 with timers:=Function.update s1.timers 0 (some t0)}
  have began : begin a b = some t0 := by simp only [begin,begins,Option.map_some,t0]
  have called : Machine.Runs step NonNegative (initial 7 true a) [.client (.call 1 [] .int (fun _ => 0))] s1 :=
    .single trivial rfl
  have started : Machine.Runs step NonNegative s1 [.start 0 b] s2 := by
    have fresh : (s1.timers 0).isNone ∧ 0 < s1.client.callers.length := ⟨rfl,Nat.one_pos⟩
    have taken : step s1 (.start 0 b) = some s2 := by
      simp only [step]
      rw [if_pos fresh,show s1.clock = a from rfl,began]
      rfl
    exact .single nonneg taken
  obtain ⟨s3,c3,taken3,clock3,timed3,held3,goes3⟩ := goes_on (s:=s2) (k:=0) (.getRefconn 0 false) rfl rfl rfl rfl rfl
  generalize there3 : c3.pc = p3 at goes3
  cases goes3
  obtain ⟨s4,c4,taken4,clock4,timed4,held4,goes4⟩ := goes_on (.send 0) timed3 held3 rfl rfl (if_pos (.inl there3))
  rw [there3] at goes4
  generalize there4 : c4.pc = p4 at goes4
  cases goes4
  let s5 : State := {s4 with clock:=now}
  have ticked : step s4 (.tick now) = some s5 := if_pos ⟨normal,by rw [clock4,clock3]; exact later⟩
  have sets : advance s5.clock {t0 with passes:=1} (.await 0) =
      some ⟨b,toMin,final,{final with tvSec:=0},a,1,[toMin],[final]⟩ := by
    simp only [advance,t0,s5,if_neg open_,setDeadline,behind,Option.map_some,if_pos greater]
    rfl
  obtain ⟨s6,c6,taken6,_,timed6,_⟩ := goes_on (s:=s5) (.await 0) timed4 held4 rfl sets (if_pos there4)
  have path : Machine.Runs step NonNegative s2 [.client (.getRefconn 0 false),.client (.send 0),.tick now,.client (.await 0)] s6 :=
    @Machine.Runs.snoc _ _ step NonNegative s2 [_,_,_] _ _ _ (@Machine.Runs.snoc _ _ _ _ _ [_,_] _ _ _
      (@Machine.Runs.snoc _ _ _ _ _ [_] _ _ _ (.single trivial taken3) trivial taken4) trivial ticked) trivial taken6
  exact ⟨_,s6,_,(called.append started).append path,timed6,rfl,rfl,List.mem_singleton.mpr rfl⟩

theorem waits_normalised_iff {a : Timespec} {b : Int32} (valid : a.Normalised) (positive : 0 < a.tvSec) (nonneg : 0 ≤ b) :
    WaitsNormalised a b ↔ sum a b ≠ second := by
  obtain ⟨final,added,value⟩ := addTimespec_nanos valid nonneg
  have normal := addTimespec_normalised_iff valid nonneg added
  obtain ⟨low,high,sec⟩ := addTimespec_bounded valid nonneg added
  rw [← normal]
  constructor
  · intro all
    let now : Timespec := ⟨final.tvSec+1,0⟩
    have jumped : now.Normalised := ⟨Int.le_refl 0,by simp [now,second]⟩
    have whole := Int32.le_iff_toInt_le.mp nonneg
    have later : a.nanos ≤ now.nanos := by
      simp only [Int32.toInt_zero,nanos,now,second] at value high whole ⊢
      omega
    obtain ⟨next,behind,ahead,far⟩ := next_deadline (t:=⟨b,toMin,⟨0,0⟩,final,a,0,[],[]⟩) (n:=0) jumped (by decide) rfl
    have greater : cmpTimespec next final > 0 := by
      rw [cmpTimespec_positive]
      obtain ⟨_,below⟩ := ahead
      simp only [nanos,now,second] at far below
      omega
    obtain ⟨labels,s,t,path,timed,start,to_,waits⟩ := final_waited nonneg added (by omega) jumped later behind greater
    exact all 7 true a labels s 0 t valid positive path timed start to_ final waits
  · intro normalised cltNonce retrans clock labels s k t valid' positive' path timed start to_ deadline member
    obtain ⟨sound,_⟩ := (runs_invariant valid' positive' path).timed k t timed
    rcases (sound.waits deadline member).2 with good | last
    · exact good
    · rw [start,to_] at last
      cases Option.some.inj (added.symm.trans last)
      exact normalised

theorem deadlines_exact_iff {a a' : Timespec} {b b' : Int32} (valid : a.Normalised) (valid' : a'.Normalised)
    (nonneg : 0 ≤ b) (nonneg' : 0 ≤ b') :
    ((Exact a b ∧ Exact a' b' ∧ ∀ r r', addTimespec a b = some r → addTimespec a' b' = some r' → Ordered r r') ↔
      Carries a b ∧ Carries a' b') ∧
    (0 < a.tvSec → (WaitsNormalised a b ↔ sum a b ≠ second)) :=
  ⟨pair_exact_iff valid valid' nonneg nonneg',fun positive => waits_normalised_iff valid positive nonneg⟩

theorem carried_deadlines_exact :
    Exact ⟨100,999999999⟩ 1500 ∧ WaitsNormalised ⟨100,999999999⟩ 1500 := by
  have valid : Timespec.Normalised ⟨100,999999999⟩ := by decide
  have valid' : Timespec.Normalised ⟨7,0⟩ := by decide
  have nonneg : (0 : Int32) ≤ 1500 := by decide
  have nonneg' : (0 : Int32) ≤ 0 := by decide
  obtain ⟨pair,waits⟩ := deadlines_exact_iff valid valid' nonneg nonneg'
  exact ⟨(pair.mpr (by decide)).1,(waits (by decide)).mpr (by decide)⟩

-- Half a second after half past: the deadline is behind 100 s by a billion
-- nanoseconds, and compares as earlier than 101 s.
theorem whole_second_denormalised :
    addTimespec ⟨100,500000000⟩ 500 = some ⟨100,1000000000⟩ ∧ ¬ Exact ⟨100,500000000⟩ 500 ∧
      cmpTimespec ⟨100,1000000000⟩ ⟨101,0⟩ = -1 ∧ nanos ⟨100,1000000000⟩ = nanos ⟨101,0⟩ ∧
      ¬ WaitsNormalised ⟨100,500000000⟩ 500 := by
  refine ⟨by decide +kernel,?_,by decide,by decide,?_⟩
  · rw [exact_iff (by decide) (by decide)]
    decide
  · rw [waits_normalised_iff (by decide) (by decide) (by decide)]
    decide

end YfsLab.Deadlines
