import Mathlib.Data.Finset.Card
import YfsLab.Lib.Counting
import YfsLab.Lib.Runs

namespace YfsLab.LockServer

-- Where a call of lock_server stands: the steps of acquire, then those of
-- release. Each is one critical section of _m, one operation on the mutex of
-- the lock, or the reply.
inductive Pc where
  | create | lock | count | reply
  | unlock | uncount | answer
  | returned
  deriving DecidableEq, Repr

structure Call where
  thread : Nat
  clt : Nat
  lid : UInt64
  pc : Pc
  deriving DecidableEq, Repr

-- _locks_m as the ids that have a mutex and those whose mutex is locked. `held`
-- has the locks that were granted and whose release was not yet asked for.
structure State where
  made : Finset UInt64
  locked : Finset UInt64
  nacquire : Int
  calls : List Call
  held : List (Nat × UInt64)

def initial : State := ⟨∅,∅,0,[],[]⟩

inductive Label where
  | acquire (thread clt : Nat) (lid : UInt64)
  | release (thread clt : Nat) (lid : UInt64)
  | step (k : Nat)
  deriving DecidableEq, Repr

def State.goes (s : State) (k : Nat) (call : Call) (pc : Pc) : State :=
  {s with calls:=s.calls.set k {call with pc:=pc}}

@[simp] theorem goes_locked (s : State) (k : Nat) (call : Call) (pc : Pc) : (s.goes k call pc).locked = s.locked := rfl
@[simp] theorem goes_nacquire (s : State) (k : Nat) (call : Call) (pc : Pc) : (s.goes k call pc).nacquire = s.nacquire := rfl
@[simp] theorem goes_held (s : State) (k : Nat) (call : Call) (pc : Pc) : (s.goes k call pc).held = s.held := rfl

-- lock_server::acquire and lock_server::release. pthread_mutex_init makes a free
-- mutex, and so does operator[] of a new id; unlocking does not ask who locked.
def advance (s : State) (k : Nat) (call : Call) : Option State :=
  match call.pc with
  | .create =>
    if call.lid ∈ s.made then some (s.goes k call .lock)
    else some {s.goes k call .lock with made:=insert call.lid s.made,locked:=s.locked.erase call.lid}
  | .lock =>
    if call.lid ∈ s.locked then none
    else some {s.goes k call .count with made:=insert call.lid s.made,locked:=insert call.lid s.locked}
  | .count => some {s.goes k call .reply with nacquire:=s.nacquire+1}
  | .reply => some {s.goes k call .returned with held:=s.held ++ [(call.clt,call.lid)]}
  | .unlock => some {s.goes k call .uncount with made:=insert call.lid s.made,locked:=s.locked.erase call.lid}
  | .uncount => some {s.goes k call .answer with nacquire:=s.nacquire-1}
  | .answer => some (s.goes k call .returned)
  | .returned => none

def step (s : State) : Label → Option State
  | .acquire thread clt lid => some {s with calls:=s.calls ++ [⟨thread,clt,lid,.create⟩]}
  | .release thread clt lid =>
    some {s with calls:=s.calls ++ [⟨thread,clt,lid,.unlock⟩],held:=s.held.erase (clt,lid)}
  | .step k => (s.calls[k]?).bind (advance s k)

def Honest (s : State) : Label → Prop
  | .release _ clt lid => (clt,lid) ∈ s.held
  | _ => True

instance (s : State) : (label : Label) → Decidable (Honest s label)
  | .release _ clt lid => inferInstanceAs (Decidable ((clt,lid) ∈ s.held))
  | .acquire _ _ _ | .step _ => inferInstanceAs (Decidable True)

def stat (s : State) : Int := s.nacquire

-- The calls that have the mutex of their lock in their care, and those that
-- nacquire counts.
def Pc.owns : Pc → Bool
  | .count | .reply | .unlock => true
  | .create | .lock | .uncount | .answer | .returned => false

def Pc.counts : Pc → Bool
  | .reply | .unlock | .uncount => true
  | .create | .lock | .count | .answer | .returned => false

def owners (calls : List Call) (lid : UInt64) : Nat := calls.countP fun call => call.lid = lid ∧ call.pc.owns
def grants (held : List (Nat × UInt64)) (lid : UInt64) : Nat := held.countP fun grant => grant.2 = lid

-- A locked mutex has one owner: the acquire that took it, the client that was
-- granted it, or the release that will unlock it.
structure Accounted (s : State) : Prop where
  made : s.locked ⊆ s.made
  owned : ∀ lid, owners s.calls lid + grants s.held lid = if lid ∈ s.locked then 1 else 0
  total : s.locked.card = (s.calls.countP fun call => call.pc.owns) + s.held.length
  counted : s.nacquire = (s.calls.countP fun call => call.pc.counts) + s.held.length

variable {s s' : State} {k : Nat} {call : Call}

theorem initial_accounted : Accounted initial := by
  constructor
  · exact Finset.Subset.refl _
  · intro lid; rfl
  · rfl
  · rfl

theorem Accounted.acquire (accounted : Accounted s) (thread clt : Nat) (lid : UInt64) :
    Accounted {s with calls:=s.calls ++ [⟨thread,clt,lid,.create⟩]} := by
  obtain ⟨made,owned,total,counted⟩ := accounted
  refine ⟨made,fun other => ?_,?_,?_⟩
  · rw [← owned other]
    simp [owners,Pc.owns]
  · rw [total]
    simp [Pc.owns]
  · rw [counted]
    simp [Pc.counts]

theorem Accounted.release (accounted : Accounted s) (thread clt : Nat) (lid : UInt64) (mine : (clt,lid) ∈ s.held) :
    Accounted {s with calls:=s.calls ++ [⟨thread,clt,lid,.unlock⟩],held:=s.held.erase (clt,lid)} := by
  obtain ⟨made,owned,total,counted⟩ := accounted
  have length := List.length_erase_of_mem mine
  have some_ := List.length_pos_of_mem mine
  refine ⟨made,fun other => ?_,?_,?_⟩
  · have granted := Counting.count_erase (fun grant : Nat × UInt64 => grant.2 = other) mine
    simp only [decide_eq_true_eq] at granted
    have new : owners (s.calls ++ [⟨thread,clt,lid,.unlock⟩]) other = owners s.calls other + (if lid = other then 1 else 0) := by
      simp [owners,Pc.owns,List.countP_singleton]
    rw [← owned other,grants,grants,new,← granted]
    dsimp only
    omega
  · have new : Pc.unlock.owns = true := rfl
    simp only [List.countP_append,List.countP_singleton,new,length,if_true]
    omega
  · have new : Pc.unlock.counts = true := rfl
    simp only [List.countP_append,List.countP_singleton,new,length,if_true]
    omega

theorem Accounted.moves (accounted : Accounted s) (held : s.calls[k]? = some call) (new : Pc)
    {made locked : Finset UInt64} {nacquire : Int} {held' : List (Nat × UInt64)} (inside : locked ⊆ made)
    (owned : ∀ lid, (if lid ∈ locked then 1 else 0) + (if call.lid = lid ∧ call.pc.owns then 1 else 0) + grants s.held lid =
      (if lid ∈ s.locked then 1 else 0) + (if call.lid = lid ∧ new.owns then 1 else 0) + grants held' lid)
    (total : locked.card + (if call.pc.owns then 1 else 0) + s.held.length =
      s.locked.card + (if new.owns then 1 else 0) + held'.length)
    (counted : nacquire + (if call.pc.counts then 1 else 0 : Nat) + s.held.length =
      s.nacquire + (if new.counts then 1 else 0 : Nat) + held'.length) :
    Accounted ⟨made,locked,nacquire,s.calls.set k {call with pc:=new},held'⟩ := by
  refine ⟨inside,fun lid => ?_,?_,?_⟩
  · have before := accounted.owned lid
    have moved := Counting.count_set (fun call : Call => call.lid = lid ∧ call.pc.owns) {call with pc:=new} held
    simp only [decide_eq_true_eq] at moved
    have change := owned lid
    unfold owners at before ⊢
    dsimp only
    omega
  · have before := accounted.total
    have moved := Counting.count_set (fun call : Call => call.pc.owns) {call with pc:=new} held
    dsimp only at moved ⊢
    omega
  · have before := accounted.counted
    have moved := Counting.count_set (fun call : Call => call.pc.counts) {call with pc:=new} held
    dsimp only at moved ⊢
    omega

theorem Accounted.unlocks (accounted : Accounted s) (held : s.calls[k]? = some call) (at_ : call.pc = .unlock) :
    call.lid ∈ s.locked := by
  have owned := accounted.owned call.lid
  have mine : 0 < owners s.calls call.lid := by
    apply List.countP_pos_iff.mpr
    exact ⟨call,List.mem_of_getElem? held,by simp [at_,Pc.owns]⟩
  by_contra free
  rw [if_neg free] at owned
  omega

theorem Accounted.advance (accounted : Accounted s) (held : s.calls[k]? = some call)
    (taken : advance s k call = some s') : Accounted s' := by
  unfold LockServer.advance at taken
  cases at_ : call.pc with
  | create =>
    simp only [at_] at taken
    split at taken
    · cases Option.some.inj taken
      apply accounted.moves held .lock accounted.made <;> simp [at_,Pc.owns,Pc.counts]
    · rename_i unknown
      have free : call.lid ∉ s.locked := fun locked => unknown (accounted.made locked)
      cases Option.some.inj taken
      rw [Finset.erase_eq_of_notMem free]
      apply accounted.moves held .lock (accounted.made.trans (Finset.subset_insert _ _)) <;> simp [at_,Pc.owns,Pc.counts]
  | lock =>
    simp only [at_] at taken
    split at taken
    · cases taken
    · rename_i free
      cases Option.some.inj taken
      apply accounted.moves held .count (Finset.insert_subset_insert _ accounted.made)
      · intro lid
        by_cases same : call.lid = lid
        · subst same
          simp [at_,Pc.owns,free]
        · simp [same,Ne.symm same]
      · simp [at_,Pc.owns,free]
      · simp [at_,Pc.counts]
  | count =>
    simp only [at_] at taken
    cases Option.some.inj taken
    apply accounted.moves held .reply accounted.made <;> simp [at_,Pc.owns,Pc.counts]
  | reply =>
    simp only [at_] at taken
    cases Option.some.inj taken
    apply accounted.moves held .returned accounted.made
    · intro lid
      by_cases same : call.lid = lid
      · simp [at_,Pc.owns,same,grants]
        omega
      · simp [same,grants]
    · simp [at_,Pc.owns]
      omega
    · simp [at_,Pc.counts]
      omega
  | unlock =>
    simp only [at_] at taken
    cases Option.some.inj taken
    have locked := accounted.unlocks held at_
    have some_ := Finset.card_pos.mpr ⟨_,locked⟩
    have inside := (Finset.erase_subset call.lid s.locked).trans (accounted.made.trans (Finset.subset_insert call.lid _))
    apply accounted.moves held .uncount inside
    · intro lid
      by_cases same : call.lid = lid
      · subst same
        simp [at_,Pc.owns,locked]
      · simp [same,Ne.symm same]
    · rw [Finset.card_erase_of_mem locked]
      simp [at_,Pc.owns]
      omega
    · simp [at_,Pc.counts]
  | uncount =>
    simp only [at_] at taken
    cases Option.some.inj taken
    apply accounted.moves held .answer accounted.made <;> simp [at_,Pc.owns,Pc.counts]
  | answer =>
    simp only [at_] at taken
    cases Option.some.inj taken
    apply accounted.moves held .returned accounted.made <;> simp [at_,Pc.owns,Pc.counts]
  | returned =>
    simp only [at_] at taken
    cases taken

theorem advance_calls (taken : LockServer.advance s k call = some s') :
    call.pc ≠ .returned ∧ ∃ pc, s'.calls = s.calls.set k {call with pc:=pc} := by
  unfold LockServer.advance at taken
  cases at_ : call.pc with
  | returned => simp [at_] at taken
  | create =>
    simp only [at_] at taken
    split at taken <;> cases Option.some.inj taken <;> exact ⟨by decide,_,rfl⟩
  | lock =>
    simp only [at_] at taken
    split at taken
    · cases taken
    · cases Option.some.inj taken
      exact ⟨by decide,_,rfl⟩
  | _ =>
    simp only [at_] at taken
    cases Option.some.inj taken
    exact ⟨by decide,_,rfl⟩

theorem Accounted.step (accounted : Accounted s) (honest : Honest s label) (taken : step s label = some s') :
    Accounted s' := by
  cases label with
  | acquire thread clt lid =>
    cases Option.some.inj taken
    exact accounted.acquire thread clt lid
  | release thread clt lid =>
    cases Option.some.inj taken
    exact accounted.release thread clt lid honest
  | step k =>
    obtain ⟨call,held,taken⟩ := Option.bind_eq_some_iff.mp taken
    exact accounted.advance held taken

theorem runs_accounted (path : Machine.Runs step Honest initial labels s) : Accounted s :=
  path.invariant initial_accounted fun _ _ _ accounted honest taken => accounted.step honest taken

end YfsLab.LockServer
