import YfsLab.Lib.Runs
import YfsLab.Marshall
import Mathlib.Data.List.Nodup

namespace YfsLab.Send

-- What a caller of connection::send hands over: the buffer of a marshall
-- object, which has room for a header and whose size is a positive int.
structure Buffer where
  bytes : List UInt8
  headed : rpcHeaderSz ≤ bytes.length
  bounded : bytes.length < 2^31

-- Where a sender stands. A parked sender remembers whether its condition
-- variable was signalled since; `failing` is the stretch of the failure path
-- in which m_ is not held.
inductive Pc where
  | waitTurn (signalled : Bool)
  | waitComplete (signalled : Bool)
  | failing
  | returned (ret : Bool)
  deriving DecidableEq, Repr

-- `mem` is the caller's memory at b, which writepdu writes the size into.
structure Sender where
  b : Buffer
  mem : List UInt8
  pc : Pc

-- connection::charbuf on the sending side; buf points into a sender's memory.
structure Charbuf where
  buf : Option Nat
  sz : Int
  solong : Int
  deriving DecidableEq, Repr

def Charbuf.null : Charbuf := ⟨none,0,0⟩

-- The results of write(): a number of bytes, or -1.
inductive WriteResult where
  | wrote (n : Nat)
  | again
  | error
  deriving DecidableEq, Repr

-- `wire` is what was written to fd_ and `failed` whether a write has failed;
-- `aborted` is a failed assertion.
structure State where
  senders : List Sender
  wpdu : Charbuf
  dead : Bool
  waiters : Int
  wire : List UInt8
  failed : Bool
  aborted : Bool

def initial : State :=
  {senders:=[],wpdu:=.null,dead:=false,waiters:=0,wire:=[],failed:=false,aborted:=false}

def setSender (s : State) (k : Nat) (sender : Sender) : State := {s with senders:=s.senders.set k sender}

def writepdu (s : State) (result : WriteResult) : Option (Bool × State) :=
  if s.wpdu.solong < 0 then some (true,{s with aborted:=true})
  else if s.wpdu.solong = s.wpdu.sz then some (true,s)
  else
    match s.wpdu.buf with
    | none => none
    | some k =>
      match s.senders[k]? with
      | none => none
      | some sender =>
        let mem := if s.wpdu.solong = 0 then
          Words.be32 (UInt32.ofNat s.wpdu.sz.toNat) ++ sender.mem.drop rpcSzSize else sender.mem
        let s := setSender s k {sender with mem:=mem}
        match result with
        | .wrote n =>
          if (n : Int) ≤ s.wpdu.sz - s.wpdu.solong then
            some (true,{s with
              wire:=s.wire ++ (mem.drop s.wpdu.solong.toNat).take n
              wpdu:={s.wpdu with solong:=s.wpdu.solong+n}})
          else none
        | .again => some (true,s)
        | .error => some (false,{s with wpdu:={s.wpdu with sz:=0,solong:=-1},failed:=true})

-- pthread_cond_broadcast(&send_wait_), and pthread_cond_signal(&send_complete_):
-- only the sender whose PDU is being written ever waits for the latter.
def Sender.calledTurn (sender : Sender) : Sender :=
  match sender.pc with
  | .waitTurn _ => {sender with pc:=.waitTurn true}
  | _ => sender

def Sender.calledComplete (sender : Sender) : Sender :=
  match sender.pc with
  | .waitComplete _ => {sender with pc:=.waitComplete true}
  | _ => sender

def signalComplete (s : State) : State := {s with senders:=s.senders.map Sender.calledComplete}

def finish (s : State) (k : Nat) (sender : Sender) : State :=
  let ret := !s.dead && s.wpdu.solong == s.wpdu.sz
  let s := setSender {s with wpdu:=.null} k {sender with pc:=.returned ret}
  if s.waiters > 0 then {s with senders:=s.senders.map Sender.calledTurn} else s

-- send from the end of its first loop to the next point where it lets m_ go.
def enter (s : State) (k : Nat) (sender : Sender) (result : WriteResult) : Option State :=
  let s := {s with waiters:=s.waiters-1}
  if s.dead then some (setSender s k {sender with pc:=.returned false}) else
  let s := setSender {s with wpdu:=⟨some k,sender.b.bytes.length,0⟩} k {sender with pc:=.waitComplete false}
  match writepdu s result with
  | none => none
  | some (succ,s) =>
    match s.senders[k]? with
    | none => none
    | some sender =>
      if succ = false then some {setSender s k {sender with pc:=.failing} with dead:=true}
      else if s.wpdu.solong = s.wpdu.sz then some (finish s k sender)
      else some s

def takeTurn (s : State) (k : Nat) (sender : Sender) (result : WriteResult) : Option State :=
  if s.dead = false ∧ s.wpdu.buf ≠ none then some (setSender s k {sender with pc:=.waitTurn false})
  else enter s k sender result

def writeCb (s : State) (result : WriteResult) : Option State :=
  if s.dead then some {s with aborted:=true}
  else if s.wpdu.sz = 0 then some s
  else
    match writepdu s result with
    | none => none
    | some (succ,s) =>
      if succ = false then some (signalComplete {s with dead:=true})
      else if s.wpdu.solong < s.wpdu.sz then some s
      else some (signalComplete s)

-- A woken sender tests its loop again, whether it was signalled or not.
inductive Label where
  | send (b : Buffer) (result : WriteResult)
  | wakeTurn (k : Nat) (result : WriteResult)
  | wakeComplete (k : Nat)
  | removed (k : Nat)
  | writeCb (result : WriteResult)
  | readFails
  | closeconn

def step (s : State) (label : Label) : Option State :=
  if s.aborted then none else
  match label with
  | .send b result =>
    let sender : Sender := ⟨b,b.bytes,.waitTurn false⟩
    takeTurn {s with senders:=s.senders ++ [sender],waiters:=s.waiters+1} s.senders.length sender result
  | .wakeTurn k result =>
    match s.senders[k]? with
    | none => none
    | some sender =>
      match sender.pc with
      | .waitTurn _ => takeTurn s k sender result
      | _ => none
  | .wakeComplete k =>
    match s.senders[k]? with
    | none => none
    | some sender =>
      match sender.pc with
      | .waitComplete _ =>
        if s.dead = false ∧ 0 ≤ s.wpdu.solong ∧ s.wpdu.solong < s.wpdu.sz then
          some (setSender s k {sender with pc:=.waitComplete false})
        else some (finish s k sender)
      | _ => none
  | .removed k =>
    match s.senders[k]? with
    | none => none
    | some sender => if sender.pc = .failing then some (finish s k sender) else none
  | .writeCb result => writeCb s result
  | .readFails => if s.dead then some s else some (signalComplete {s with dead:=true})
  | .closeconn => some {s with dead:=true}

-- The rules of the machine, one for each way through a step. The proofs about
-- a step start from these.
inductive Step (s : State) : Label → State → Prop where
  | send : takeTurn {s with senders:=s.senders ++ [⟨b,b.bytes,.waitTurn false⟩],waiters:=s.waiters+1} s.senders.length
        ⟨b,b.bytes,.waitTurn false⟩ result = some s' →
      Step s (.send b result) s'
  | wakeTurn : s.senders[k]? = some sender → sender.pc = .waitTurn signalled → takeTurn s k sender result = some s' →
      Step s (.wakeTurn k result) s'
  | parksAgain : s.senders[k]? = some sender → sender.pc = .waitComplete signalled → s.dead = false →
      Step s (.wakeComplete k) (setSender s k {sender with pc:=.waitComplete false})
  | completes : s.senders[k]? = some sender → sender.pc = .waitComplete signalled →
      ¬ (s.dead = false ∧ 0 ≤ s.wpdu.solong ∧ s.wpdu.solong < s.wpdu.sz) →
      Step s (.wakeComplete k) (finish s k sender)
  | removed : s.senders[k]? = some sender → sender.pc = .failing → Step s (.removed k) (finish s k sender)
  | writeCb : writeCb s result = some s' → Step s (.writeCb result) s'
  | readLate : s.dead = true → Step s .readFails s
  | readFails : s.dead = false → Step s .readFails (signalComplete {s with dead:=true})
  | closeconn : Step s .closeconn {s with dead:=true}

variable {s s' : State} {k : Nat} {sender : Sender} {full : List Nat} {part : List UInt8}

theorem step_sound (taken : step s label = some s') : Step s label s' := by
  unfold step at taken
  split at taken
  · cases taken
  · cases label with
    | send b result => exact .send taken
    | wakeTurn k result =>
      dsimp only at taken
      split at taken
      · cases taken
      · rename_i held
        split at taken
        · rename_i pc; exact .wakeTurn held pc taken
        · cases taken
    | wakeComplete k =>
      dsimp only at taken
      split at taken
      · cases taken
      · rename_i held
        split at taken
        · rename_i pc
          split at taken
          · rename_i again; cases Option.some.inj taken; exact .parksAgain held pc again.1
          · rename_i ended; cases Option.some.inj taken; exact .completes held pc ended
        · cases taken
    | removed k =>
      dsimp only at taken
      split at taken
      · cases taken
      · rename_i held
        split at taken
        · rename_i pc; cases Option.some.inj taken; exact .removed held pc
        · cases taken
    | writeCb result => exact .writeCb taken
    | readFails =>
      dsimp only at taken
      split at taken
      · rename_i late; cases Option.some.inj taken; exact .readLate late
      · rename_i alive; cases Option.some.inj taken; exact .readFails (by simpa using alive)
    | closeconn => cases Option.some.inj taken; exact .closeconn

def frameAt (senders : List Sender) (k : Nat) : List UInt8 :=
  match senders[k]? with
  | none => []
  | some sender => frame sender.b.bytes

def holding : Pc → Bool
  | .waitComplete _ => true
  | .failing => true
  | _ => false

-- The writing of one PDU: n of its bytes are on the wire, or a write failed
-- after n bytes.
inductive Writing (s : State) (sender : Sender) (part : List UInt8) : Prop where
  | good (n : Nat) : s.wpdu.sz = sender.b.bytes.length → s.wpdu.solong = n → n ≤ sender.b.bytes.length →
      part = (frame sender.b.bytes).take n → (n ≠ 0 → sender.mem = frame sender.b.bytes) → Writing s sender part
  | failed (n : Nat) : s.dead = true → s.wpdu.sz = 0 → s.wpdu.solong = -1 → n < sender.b.bytes.length →
      part = (frame sender.b.bytes).take n → Writing s sender part

-- Complete PDUs of different senders, and then at most the front of one more.
structure Written (s : State) (full : List Nat) (part : List UInt8) : Prop where
  wire : s.wire = full.flatMap (frameAt s.senders) ++ part
  nodup : full.Nodup
  known : ∀ k ∈ full, ∃ sender ret, s.senders[k]? = some sender ∧ sender.pc = .returned ret
  owner : ∀ (k : Nat) sender, s.senders[k]? = some sender → (holding sender.pc = true ↔ s.wpdu.buf = some k)
  failing : ∀ (k : Nat) sender, s.senders[k]? = some sender → sender.pc = .failing → s.dead = true
  returned : ∀ (k : Nat) sender, s.senders[k]? = some sender → sender.pc = .returned true → k ∈ full
  memory : ∀ (k : Nat) sender, s.senders[k]? = some sender →
    sender.mem.drop rpcSzSize = sender.b.bytes.drop rpcSzSize
  idle : s.wpdu.buf = none → s.wpdu = .null ∧ (part = [] ∨ s.dead = true ∧ ∃ (k n : Nat), k ∉ full ∧
    k < s.senders.length ∧ n < (frameAt s.senders k).length ∧ part = (frameAt s.senders k).take n)
  busy : ∀ k, s.wpdu.buf = some k → k ∉ full ∧ ∃ sender, s.senders[k]? = some sender ∧ Writing s sender part
  stopped : s.failed = true → s.dead = true

theorem initial_written : Written initial [] [] :=
  ⟨rfl,List.nodup_nil,by simp,by simp [initial],by simp [initial],by simp [initial],by simp [initial],
    by simp [initial,Charbuf.null],by simp [initial,Charbuf.null],by simp [initial]⟩

-- Senders that differ in their own bookkeeping only. A sender may start to fail
-- on a dead connection.
structure Same (dead : Bool) (sender sender' : Sender) : Prop where
  b : sender'.b = sender.b
  mem : sender'.mem = sender.mem
  holding : holding sender'.pc = holding sender.pc
  failing : sender'.pc = .failing → dead = true ∨ sender.pc = .failing
  kept : ∀ ret, sender.pc = .returned ret → sender'.pc = .returned ret
  returned : sender'.pc = .returned true → sender.pc = .returned true

theorem Same.refl (sender : Sender) : Same dead sender sender := ⟨rfl,rfl,rfl,.inr,fun _ => id,id⟩

structure Alike (dead : Bool) (senders senders' : List Sender) : Prop where
  length : senders'.length = senders.length
  forward : ∀ (k : Nat) sender, senders[k]? = some sender → ∃ sender', senders'[k]? = some sender' ∧ Same dead sender sender'

theorem Alike.backward {senders senders' : List Sender} (alike : Alike dead senders senders') {sender' : Sender}
    (found : senders'[k]? = some sender') : ∃ sender, senders[k]? = some sender ∧ Same dead sender sender' := by
  have bound := (List.getElem?_eq_some_iff.mp found).1
  rw [alike.length] at bound
  obtain ⟨other,now,same⟩ := alike.forward k _ (List.getElem?_eq_getElem bound)
  cases Option.some.inj (now.symm.trans found)
  exact ⟨_,List.getElem?_eq_getElem bound,same⟩

theorem Alike.set {senders : List Sender} {sender' : Sender} (held : senders[k]? = some sender)
    (same : Same dead sender sender') : Alike dead senders (senders.set k sender') := by
  refine ⟨List.length_set,?_⟩
  intro j other found
  by_cases at_ : j = k
  · subst at_
    cases Option.some.inj (held.symm.trans found)
    exact ⟨sender',Machine.entry_self held,same⟩
  · exact ⟨other,(Machine.entry_other at_).trans found,.refl other⟩

theorem Alike.map {senders : List Sender} {change : Sender → Sender} (same : ∀ sender, Same dead sender (change sender)) :
    Alike dead senders (senders.map change) :=
  ⟨List.length_map _,fun k sender found => ⟨change sender,by simp [found],same sender⟩⟩

theorem calledTurn_same (sender : Sender) : Same dead sender sender.calledTurn := by
  unfold Sender.calledTurn
  split
  · rename_i pc; exact ⟨rfl,rfl,by simp [holding,pc],by simp,by simp [pc],by simp⟩
  · exact .refl sender

theorem calledComplete_same (sender : Sender) : Same dead sender sender.calledComplete := by
  unfold Sender.calledComplete
  split
  · rename_i pc; exact ⟨rfl,rfl,by simp [holding,pc],by simp,by simp [pc],by simp⟩
  · exact .refl sender

theorem frameAt_eq {senders : List Sender} (held : senders[k]? = some sender) :
    frameAt senders k = frame sender.b.bytes := by simp [frameAt,held]

theorem frameAt_set {senders : List Sender} {sender' : Sender} (held : senders[k]? = some sender)
    (b : sender'.b = sender.b) : frameAt (senders.set k sender') = frameAt senders := by
  funext j
  by_cases at_ : j = k
  · subst at_
    rw [frameAt_eq held,frameAt_eq (Machine.entry_self held),b]
  · unfold frameAt
    rw [Machine.entry_other at_]

theorem frame_size (b : Buffer) : (frame b.bytes).length = b.bytes.length := by
  have headed := b.headed
  simp only [rpcHeaderSz] at headed
  exact frame_length (by omega)

theorem Alike.frameAt {senders senders' : List Sender} (alike : Alike dead senders senders') (k : Nat) :
    frameAt senders' k = frameAt senders k := by
  cases held : senders[k]? with
  | some sender =>
    obtain ⟨sender',now,same⟩ := alike.forward k sender held
    rw [frameAt_eq held,frameAt_eq now,same.b]
  | none =>
    have missing : senders'[k]? = none := by
      rw [List.getElem?_eq_none_iff] at held ⊢
      rw [alike.length]; exact held
    simp [Send.frameAt,held,missing]

theorem Writing.alike {sender' : Sender} (writing : Writing s sender part) (same : Same s'.dead sender sender')
    (wpdu : s'.wpdu = s.wpdu) (dead : s.dead = true → s'.dead = true) : Writing s' sender' part := by
  cases writing with
  | good n sz solong bound bytes mem =>
    exact .good n (by rw [wpdu,same.b]; exact sz) (by rw [wpdu]; exact solong) (by rw [same.b]; exact bound)
      (by rw [same.b]; exact bytes) (by rw [same.b,same.mem]; exact mem)
  | failed n gone sz solong bound bytes =>
    exact .failed n (dead gone) (by rw [wpdu]; exact sz) (by rw [wpdu]; exact solong) (by rw [same.b]; exact bound)
      (by rw [same.b]; exact bytes)

theorem Written.alike (written : Written s full part) (alike : Alike s'.dead s.senders s'.senders) (wire : s'.wire = s.wire)
    (wpdu : s'.wpdu = s.wpdu) (failed : s'.failed = s.failed) (dead : s.dead = true → s'.dead = true) :
    Written s' full part := by
  have frames : frameAt s'.senders = frameAt s.senders := funext alike.frameAt
  refine ⟨by rw [wire,frames]; exact written.wire,written.nodup,?_,?_,?_,?_,?_,?_,?_,?_⟩
  · intro k member
    obtain ⟨sender,ret,held,pc⟩ := written.known k member
    obtain ⟨sender',now,same⟩ := alike.forward k sender held
    exact ⟨sender',ret,now,same.kept ret pc⟩
  · intro k sender' found
    obtain ⟨sender,old,same⟩ := alike.backward found
    rw [same.holding,wpdu]
    exact written.owner k sender old
  · intro k sender' found pc
    obtain ⟨sender,old,same⟩ := alike.backward found
    rcases same.failing pc with gone | failing
    · exact gone
    · exact dead (written.failing k sender old failing)
  · intro k sender' found pc
    obtain ⟨sender,old,same⟩ := alike.backward found
    exact written.returned k sender old (same.returned pc)
  · intro k sender' found
    obtain ⟨sender,old,same⟩ := alike.backward found
    rw [same.mem,same.b]
    exact written.memory k sender old
  · intro none
    rw [wpdu] at none ⊢
    obtain ⟨null,rest⟩ := written.idle none
    refine ⟨null,rest.imp_right ?_⟩
    rintro ⟨gone,j,n,fresh,inside,bound,bytes⟩
    exact ⟨dead gone,j,n,fresh,by rw [alike.length]; exact inside,by rw [frames]; exact bound,by rw [frames]; exact bytes⟩
  · intro k own
    rw [wpdu] at own
    obtain ⟨fresh,sender,held,writing⟩ := written.busy k own
    obtain ⟨sender',now,same⟩ := alike.forward k sender held
    exact ⟨fresh,sender',now,writing.alike same wpdu dead⟩
  · intro broken
    exact dead (written.stopped (failed ▸ broken))

theorem Written.signal (written : Written s full part) : Written (signalComplete s) full part :=
  written.alike (.map calledComplete_same) rfl rfl rfl id

theorem Written.die (written : Written s full part) : Written {s with dead:=true} full part :=
  written.alike ⟨rfl,fun _ sender found => ⟨sender,found,.refl sender⟩⟩ rfl rfl rfl (fun _ => rfl)

theorem append_frameAt {senders : List Sender} (new : Sender) (inside : k < senders.length) :
    frameAt (senders ++ [new]) k = frameAt senders k := by
  unfold frameAt
  rw [List.getElem?_append_left inside]

theorem Written.append (written : Written s full part) (b : Buffer) (waiters : Int) :
    Written {s with senders:=s.senders ++ [⟨b,b.bytes,.waitTurn false⟩],waiters:=waiters} full part := by
  have inside : ∀ k ∈ full, k < s.senders.length := by
    intro k member
    obtain ⟨sender,_,held,_⟩ := written.known k member
    exact (List.getElem?_eq_some_iff.mp held).1
  have frames : full.flatMap (frameAt (s.senders ++ [⟨b,b.bytes,.waitTurn false⟩])) = full.flatMap (frameAt s.senders) :=
    List.flatMap_congr fun k member => append_frameAt _ (inside k member)
  have unowned : s.wpdu.buf ≠ some s.senders.length := by
    intro own
    obtain ⟨_,sender,held,_⟩ := written.busy _ own
    have := (List.getElem?_eq_some_iff.mp held).1
    omega
  refine ⟨by rw [frames]; exact written.wire,written.nodup,?_,?_,?_,?_,?_,?_,?_,written.stopped⟩
  · intro k member
    obtain ⟨sender,ret,held,pc⟩ := written.known k member
    exact ⟨sender,ret,Machine.entry_kept held,pc⟩
  · intro k sender found
    rcases Machine.entry_append found with old | ⟨rfl,rfl⟩
    · exact written.owner k sender old
    · simp [holding,unowned]
  · intro k sender found pc
    rcases Machine.entry_append found with old | ⟨_,rfl⟩
    · exact written.failing k sender old pc
    · cases pc
  · intro k sender found pc
    rcases Machine.entry_append found with old | ⟨_,rfl⟩
    · exact written.returned k sender old pc
    · cases pc
  · intro k sender found
    rcases Machine.entry_append found with old | ⟨_,rfl⟩
    · exact written.memory k sender old
    · rfl
  · intro none
    obtain ⟨null,rest⟩ := written.idle none
    refine ⟨null,rest.imp_right ?_⟩
    rintro ⟨gone,j,n,fresh,known,bound,bytes⟩
    rw [← append_frameAt ⟨b,b.bytes,.waitTurn false⟩ known] at bound bytes
    exact ⟨gone,j,n,fresh,by simp; omega,bound,bytes⟩
  · intro k own
    obtain ⟨fresh,sender,held,writing⟩ := written.busy k own
    exact ⟨fresh,sender,Machine.entry_kept held,writing.alike (.refl sender) rfl id⟩

theorem Written.install (written : Written s full part) (alive : s.dead = false) (none : s.wpdu.buf = none)
    (held : s.senders[k]? = some sender) (pc : sender.pc = .waitTurn signalled) (waiters : Int) :
    Written (setSender {s with waiters:=waiters,wpdu:=⟨some k,sender.b.bytes.length,0⟩} k
      {sender with pc:=.waitComplete false}) full [] := by
  have empty : part = [] := by
    rcases (written.idle none).2 with empty | ⟨gone,_⟩
    · exact empty
    · rw [alive] at gone; cases gone
  subst empty
  have fresh : k ∉ full := by
    intro member
    obtain ⟨other,ret,again,returned⟩ := written.known k member
    cases Option.some.inj (held.symm.trans again)
    rw [pc] at returned; cases returned
  have frames : frameAt (s.senders.set k {sender with pc:=.waitComplete false}) = frameAt s.senders :=
    frameAt_set held rfl
  have others : ∀ (j : Nat) other, (s.senders.set k {sender with pc:=.waitComplete false})[j]? = some other →
      (j = k ∧ other = {sender with pc:=.waitComplete false}) ∨ (j ≠ k ∧ s.senders[j]? = some other) :=
    fun j other found => Machine.entry_cases found
  refine ⟨?_,written.nodup,?_,?_,?_,?_,?_,?_,?_,written.stopped⟩
  · show s.wire = full.flatMap (frameAt (s.senders.set k _)) ++ []
    rw [frames]
    exact written.wire
  · intro j member
    obtain ⟨other,ret,again,returned⟩ := written.known j member
    have different : j ≠ k := by rintro rfl; exact fresh member
    exact ⟨other,ret,(Machine.entry_other different).trans again,returned⟩
  · intro j other found
    rcases others j other found with ⟨rfl,rfl⟩ | ⟨different,old⟩
    · simp [holding,setSender]
    · have idle := written.owner j other old
      rw [none] at idle
      simp only [reduceCtorEq,iff_false] at idle
      simp [idle,setSender,Ne.symm different]
  · intro j other found failing
    rcases others j other found with ⟨rfl,rfl⟩ | ⟨_,old⟩
    · cases failing
    · exact written.failing j other old failing
  · intro j other found returned
    rcases others j other found with ⟨rfl,rfl⟩ | ⟨_,old⟩
    · cases returned
    · exact written.returned j other old returned
  · intro j other found
    rcases others j other found with ⟨rfl,rfl⟩ | ⟨_,old⟩
    · exact written.memory j sender held
    · exact written.memory j other old
  · intro absurd_
    cases absurd_
  · intro j own
    cases own
    exact ⟨fresh,_,Machine.entry_self held,.good 0 rfl rfl (Nat.zero_le _) rfl (fun zero => absurd rfl zero)⟩

theorem frame_mem (memory : sender.mem.drop rpcSzSize = sender.b.bytes.drop rpcSzSize) :
    Words.be32 (UInt32.ofNat (sender.b.bytes.length : Int).toNat) ++ sender.mem.drop rpcSzSize =
      frame sender.b.bytes := by
  rw [memory,Int.toNat_natCast,frame]
  rfl

theorem Written.progress (written : Written s full part) (own : s.wpdu.buf = some k)
    (held : s.senders[k]? = some sender)
    (senders : s'.senders = s.senders.set k {sender with mem:=frame sender.b.bytes})
    (wire : s'.wire = s.wire ++ more) (buf : s'.wpdu.buf = some k) (dead : s.dead = true → s'.dead = true)
    (stopped : s'.failed = true → s'.dead = true)
    (writing : Writing s' {sender with mem:=frame sender.b.bytes} (part ++ more)) :
    Written s' full (part ++ more) := by
  have frames : frameAt s'.senders = frameAt s.senders := by
    rw [senders]
    exact frameAt_set held rfl
  have others : ∀ (j : Nat) other, s'.senders[j]? = some other →
      (j = k ∧ other = {sender with mem:=frame sender.b.bytes}) ∨ s.senders[j]? = some other := by
    intro j other found
    rw [senders] at found
    exact (Machine.entry_cases found).imp_right And.right
  refine ⟨?_,written.nodup,?_,?_,?_,?_,?_,?_,?_,stopped⟩
  · rw [wire,frames,← List.append_assoc,← written.wire]
  · intro j member
    obtain ⟨other,ret,again,returned⟩ := written.known j member
    have different : j ≠ k := by rintro rfl; exact (written.busy j own).1 member
    exact ⟨other,ret,by rw [senders,Machine.entry_other different]; exact again,returned⟩
  · intro j other found
    rw [buf,← own]
    rcases others j other found with ⟨rfl,rfl⟩ | old
    · exact written.owner j sender held
    · exact written.owner j other old
  · intro j other found pc
    rcases others j other found with ⟨rfl,rfl⟩ | old
    · exact dead (written.failing j sender held pc)
    · exact dead (written.failing j other old pc)
  · intro j other found pc
    rcases others j other found with ⟨rfl,rfl⟩ | old
    · exact written.returned j sender held pc
    · exact written.returned j other old pc
  · intro j other found
    rcases others j other found with ⟨rfl,rfl⟩ | old
    · exact List.drop_left' rfl
    · exact written.memory j other old
  · intro none
    rw [buf] at none; cases none
  · intro j now
    rw [buf] at now
    cases now
    exact ⟨(written.busy k own).1,_,by rw [senders]; exact Machine.entry_self held,writing⟩

theorem Written.writepdu (written : Written s full part) (alive : s.dead = false) (own : s.wpdu.buf = some k)
    (held : s.senders[k]? = some sender) (wrote : writepdu s result = some (succ,s')) :
    s'.dead = false ∧ s'.wpdu.buf = some k ∧ (∃ sender', s'.senders[k]? = some sender' ∧ sender'.pc = sender.pc) ∧
      ∃ part', Written (if succ then s' else {s' with dead:=true}) full part' := by
  obtain ⟨_,again,found,writing⟩ := written.busy k own
  cases Option.some.inj (held.symm.trans found)
  cases writing with
  | failed n gone => rw [alive] at gone; cases gone
  | good n sz solong bound bytes mem =>
    unfold Send.writepdu at wrote
    rw [if_neg (by omega)] at wrote
    split at wrote
    · obtain ⟨rfl,rfl⟩ := Prod.mk.inj (Option.some.inj wrote)
      exact ⟨alive,own,⟨sender,held,rfl⟩,part,written⟩
    · rename_i unfinished
      have short : n < sender.b.bytes.length := by
        rw [sz,solong] at unfinished
        omega
      simp only [own,held] at wrote
      have memory : (if s.wpdu.solong = 0 then
          Words.be32 (UInt32.ofNat s.wpdu.sz.toNat) ++ sender.mem.drop rpcSzSize else sender.mem) =
          frame sender.b.bytes := by
        split
        · rw [sz]; exact frame_mem (written.memory k sender held)
        · rename_i begun
          exact mem (by rw [solong] at begun; omega)
      rw [memory] at wrote
      have entry : (s.senders.set k {sender with mem:=frame sender.b.bytes})[k]? =
          some {sender with mem:=frame sender.b.bytes} := Machine.entry_self held
      cases result with
      | again =>
        obtain ⟨rfl,rfl⟩ := Prod.mk.inj (Option.some.inj wrote)
        refine ⟨alive,own,⟨_,entry,rfl⟩,part ++ [],?_⟩
        exact written.progress own held rfl (List.append_nil _).symm own id written.stopped
          (.good n sz solong bound (by rw [List.append_nil]; exact bytes) (fun _ => rfl))
      | error =>
        obtain ⟨rfl,rfl⟩ := Prod.mk.inj (Option.some.inj wrote)
        refine ⟨alive,own,⟨_,entry,rfl⟩,part ++ [],?_⟩
        exact written.progress own held rfl (List.append_nil _).symm own (fun _ => rfl) (fun _ => rfl)
          (.failed n rfl rfl rfl short (by rw [List.append_nil]; exact bytes))
      | wrote m =>
        simp only at wrote
        split at wrote
        · rename_i fits
          obtain ⟨rfl,rfl⟩ := Prod.mk.inj (Option.some.inj wrote)
          have whole : n + m ≤ sender.b.bytes.length := by
            have fits : (m : Int) ≤ s.wpdu.sz - s.wpdu.solong := fits
            rw [sz,solong] at fits
            omega
          refine ⟨alive,own,⟨_,entry,rfl⟩,part ++ ((frame sender.b.bytes).drop n).take m,?_⟩
          refine written.progress own held rfl ?_ own id written.stopped (.good (n+m) sz ?_ whole ?_ (fun _ => rfl))
          · show s.wire ++ ((frame sender.b.bytes).drop s.wpdu.solong.toNat).take m = _
            rw [solong,Int.toNat_natCast]
          · show s.wpdu.solong + (m : Int) = _
            rw [solong]
            simp
          · rw [bytes,List.take_add]
        · cases wrote

theorem Written.release {full' : List Nat} {part' : List UInt8} (written : Written s full part)
    (own : s.wpdu.buf = some k) (held : s.senders[k]? = some sender)
    (accounted : full.flatMap (frameAt s.senders) ++ part = full'.flatMap (frameAt s.senders) ++ part')
    (nodup : full'.Nodup) (members : ∀ j, j ∈ full' ↔ j ∈ full ∨ (j = k ∧ k ∈ full'))
    (good : ret = true → k ∈ full')
    (rest : part' = [] ∨ s.dead = true ∧ ∃ n : Nat, k ∉ full' ∧ n < (frameAt s.senders k).length ∧
      part' = (frameAt s.senders k).take n) :
    Written (setSender {s with wpdu:=.null} k {sender with pc:=.returned ret}) full' part' := by
  have frames : frameAt (s.senders.set k {sender with pc:=.returned ret}) = frameAt s.senders :=
    frameAt_set held rfl
  have others : ∀ (j : Nat) other, (s.senders.set k {sender with pc:=.returned ret})[j]? = some other →
      (j = k ∧ other = {sender with pc:=.returned ret}) ∨ (j ≠ k ∧ s.senders[j]? = some other) :=
    fun j other found => Machine.entry_cases found
  refine ⟨?_,nodup,?_,?_,?_,?_,?_,?_,?_,written.stopped⟩
  · show s.wire = full'.flatMap (frameAt (s.senders.set k _)) ++ part'
    rw [frames,written.wire,accounted]
  · intro j member
    by_cases at_ : j = k
    · subst at_
      exact ⟨_,ret,Machine.entry_self held,rfl⟩
    · have old : j ∈ full := ((members j).mp member).resolve_right (fun both => at_ both.1)
      obtain ⟨other,ret',again,returned⟩ := written.known j old
      exact ⟨other,ret',(Machine.entry_other at_).trans again,returned⟩
  · intro j other found
    rcases others j other found with ⟨rfl,rfl⟩ | ⟨different,old⟩
    · simp [holding,setSender,Charbuf.null]
    · have idle := written.owner j other old
      rw [own] at idle
      simp only [Option.some.injEq,Ne.symm different,iff_false] at idle
      simp [idle,setSender,Charbuf.null]
  · intro j other found failing
    rcases others j other found with ⟨rfl,rfl⟩ | ⟨_,old⟩
    · cases failing
    · exact written.failing j other old failing
  · intro j other found returned
    rcases others j other found with ⟨rfl,rfl⟩ | ⟨_,old⟩
    · exact good (by simpa using returned)
    · exact (members j).mpr (.inl (written.returned j other old returned))
  · intro j other found
    rcases others j other found with ⟨rfl,rfl⟩ | ⟨_,old⟩
    · exact written.memory j sender held
    · exact written.memory j other old
  · intro _
    refine ⟨rfl,rest.imp_right ?_⟩
    rintro ⟨gone,n,fresh,bound,bytes⟩
    have inside := (List.getElem?_eq_some_iff.mp held).1
    refine ⟨gone,k,n,fresh,by simpa [setSender] using inside,?_,?_⟩
    · show n < (frameAt (s.senders.set k _) k).length
      rw [frames]; exact bound
    · show part' = (frameAt (s.senders.set k _) k).take n
      rw [frames]; exact bytes
  · intro j owned
    cases owned

theorem Written.finish (written : Written s full part) (own : s.wpdu.buf = some k)
    (held : s.senders[k]? = some sender) (ended : s.dead = true ∨ s.wpdu.solong = s.wpdu.sz) :
    ∃ full' part', Written (finish s k sender) full' part' := by
  have released : ∃ full' part', Written (setSender {s with wpdu:=.null} k
      {sender with pc:=.returned (!s.dead && s.wpdu.solong == s.wpdu.sz)}) full' part' := by
    obtain ⟨fresh,again,found,writing⟩ := written.busy k own
    cases Option.some.inj (held.symm.trans found)
    have cut : ∀ n, n < sender.b.bytes.length → part = (frame sender.b.bytes).take n → s.dead = true →
        ∃ full' part', Written (setSender {s with wpdu:=.null} k
          {sender with pc:=.returned (!s.dead && s.wpdu.solong == s.wpdu.sz)}) full' part' := by
      intro n short bytes gone
      refine ⟨full,part,written.release own held rfl written.nodup (by simp [fresh]) (by simp [gone]) (.inr ⟨gone,n,?_⟩)⟩
      rw [frameAt_eq held,frame_size]
      exact ⟨fresh,short,bytes⟩
    cases writing with
    | failed n gone _ _ short bytes => exact cut n short bytes gone
    | good n sz solong bound bytes =>
      rcases Nat.lt_or_ge n sender.b.bytes.length with short | complete
      · refine cut n short bytes (ended.resolve_right ?_)
        rw [sz,solong]
        omega
      · have whole : part = frameAt s.senders k := by
          rw [bytes,frameAt_eq held,List.take_of_length_le (by rw [frame_size]; omega)]
        refine ⟨full ++ [k],[],written.release own held (by simp [whole]) ?_ (by simp) (by simp) (.inl rfl)⟩
        exact List.nodup_append.mpr ⟨written.nodup,List.nodup_singleton k,by
          intro a member b single
          rw [List.mem_singleton.mp single]
          rintro rfl
          exact fresh member⟩
  obtain ⟨full',part',free⟩ := released
  refine ⟨full',part',?_⟩
  unfold Send.finish
  dsimp only
  split
  · exact free.alike (.map calledTurn_same) rfl rfl rfl id
  · exact free

theorem enter_written (written : Written s full part) (held : s.senders[k]? = some sender)
    (pc : sender.pc = .waitTurn signalled) (free : s.dead = true ∨ s.wpdu.buf = none)
    (taken : enter s k sender result = some s') : ∃ full' part', Written s' full' part' := by
  unfold enter at taken
  dsimp only at taken
  split at taken
  · cases Option.some.inj taken
    refine ⟨full,part,written.alike (.set held ⟨rfl,rfl,?_,?_,?_,?_⟩) rfl rfl rfl id⟩
    · simp [holding,pc]
    · simp
    · simp [pc]
    · simp
  · rename_i alive
    have alive : s.dead = false := by simpa using alive
    have none : s.wpdu.buf = none := free.resolve_left (by simp [alive])
    have installed := written.install alive none held pc (s.waiters-1)
    split at taken
    · cases taken
    · rename_i succ after wrote
      obtain ⟨still,own,⟨sender',entry,pc'⟩,part',result⟩ :=
        installed.writepdu alive rfl (Machine.entry_self held) wrote
      rw [entry] at taken
      simp only at taken
      split at taken
      · rename_i failed
        subst failed
        cases Option.some.inj taken
        refine ⟨full,part',result.alike (.set entry ⟨rfl,rfl,?_,?_,?_,?_⟩) rfl rfl rfl (fun _ => rfl)⟩
        · rw [pc']; rfl
        · exact fun _ => .inl rfl
        · rw [pc']; simp
        · simp
      · rename_i good
        have good : succ = true := by simpa using good
        subst good
        split at taken
        · rename_i complete
          cases Option.some.inj taken
          exact result.finish own entry (.inr complete)
        · cases Option.some.inj taken
          exact ⟨full,part',result⟩

theorem takeTurn_written (written : Written s full part) (held : s.senders[k]? = some sender)
    (pc : sender.pc = .waitTurn signalled) (taken : takeTurn s k sender result = some s') :
    ∃ full' part', Written s' full' part' := by
  unfold takeTurn at taken
  split at taken
  · cases Option.some.inj taken
    exact ⟨full,part,written.alike (.set held ⟨rfl,rfl,by simp [holding,pc],by simp,by simp [pc],by simp⟩) rfl rfl rfl id⟩
  · rename_i free
    refine enter_written written held pc ?_ taken
    by_cases gone : s.dead = true
    · exact .inl gone
    · exact .inr (Classical.byContradiction fun owned => free ⟨by simpa using gone,owned⟩)

theorem writeCb_written (written : Written s full part) (taken : writeCb s result = some s') :
    ∃ full' part', Written s' full' part' := by
  unfold writeCb at taken
  split at taken
  · cases Option.some.inj taken
    exact ⟨full,part,written.alike ⟨rfl,fun _ sender found => ⟨sender,found,.refl sender⟩⟩ rfl rfl rfl id⟩
  · rename_i alive
    have alive : s.dead = false := by simpa using alive
    split at taken
    · cases Option.some.inj taken
      exact ⟨full,part,written⟩
    · rename_i nonempty
      cases own : s.wpdu.buf with
      | none =>
        rw [(written.idle own).1] at nonempty
        exact absurd rfl nonempty
      | some k =>
        obtain ⟨_,sender,held,_⟩ := written.busy k own
        split at taken
        · cases taken
        · rename_i succ after wrote
          obtain ⟨_,_,_,part',result⟩ := written.writepdu alive own held wrote
          split at taken
          · rename_i failed
            subst failed
            cases Option.some.inj taken
            exact ⟨full,part',result.signal⟩
          · rename_i good
            have good : succ = true := by simpa using good
            subst good
            split at taken
            · cases Option.some.inj taken
              exact ⟨full,part',result⟩
            · cases Option.some.inj taken
              exact ⟨full,part',result.signal⟩

theorem Written.ended (written : Written s full part) (own : s.wpdu.buf = some k)
    (ended : ¬ (s.dead = false ∧ 0 ≤ s.wpdu.solong ∧ s.wpdu.solong < s.wpdu.sz)) :
    s.dead = true ∨ s.wpdu.solong = s.wpdu.sz := by
  by_cases gone : s.dead = true
  · exact .inl gone
  · have alive : s.dead = false := by simpa using gone
    obtain ⟨_,_,_,writing⟩ := written.busy k own
    cases writing with
    | failed n dead => exact absurd dead gone
    | good n sz solong bound =>
      refine .inr (Classical.byContradiction fun short => ended ⟨alive,by omega,?_⟩)
      rw [sz,solong] at short ⊢
      omega

theorem step_written (written : Written s full part) (taken : step s label = some s') :
    ∃ full' part', Written s' full' part' := by
  cases step_sound taken with
  | send entered =>
    refine takeTurn_written (written.append _ (s.waiters+1)) ?_ rfl entered
    simp
  | wakeTurn held pc entered => exact takeTurn_written written held pc entered
  | parksAgain held pc =>
    exact ⟨full,part,written.alike
      (.set held ⟨rfl,rfl,by simp [holding,pc],by simp,by simp [pc],by simp⟩) rfl rfl rfl id⟩
  | completes held pc ended =>
    have own := (written.owner _ _ held).mp (by rw [pc]; rfl)
    exact written.finish own held (written.ended own ended)
  | removed held pc =>
    exact written.finish ((written.owner _ _ held).mp (by rw [pc]; rfl)) held (.inl (written.failing _ _ held pc))
  | writeCb called => exact writeCb_written written called
  | readLate => exact ⟨full,part,written⟩
  | readFails => exact ⟨full,part,written.die.signal⟩
  | closeconn => exact ⟨full,part,written.die⟩

theorem runs_written (path : Machine.Runs step ok initial labels s) : ∃ full part, Written s full part := by
  induction path with
  | nil => exact ⟨[],[],initial_written⟩
  | snoc _ _ taken ih =>
    obtain ⟨full,part,written⟩ := ih
    exact step_written written taken

theorem finish_keeps (s : State) (k : Nat) (sender : Sender) :
    (finish s k sender).dead = s.dead ∧ (finish s k sender).wire = s.wire := by
  unfold finish
  dsimp only
  split <;> exact ⟨rfl,rfl⟩

theorem takeTurn_dead (dead : s.dead = true) (taken : takeTurn s k sender result = some s') :
    s'.dead = true ∧ s'.wire = s.wire := by
  unfold takeTurn at taken
  rw [if_neg (by simp [dead])] at taken
  unfold enter at taken
  dsimp only at taken
  rw [if_pos dead] at taken
  cases Option.some.inj taken
  exact ⟨dead,rfl⟩

theorem step_dead (dead : s.dead = true) (taken : step s label = some s') : s'.dead = true ∧ s'.wire = s.wire := by
  have finished : ∀ k sender, (finish s k sender).dead = true ∧ (finish s k sender).wire = s.wire :=
    fun k sender => ⟨(finish_keeps s k sender).1.trans dead,(finish_keeps s k sender).2⟩
  cases step_sound taken with
  | @send b _ _ entered =>
    let queued : State := {s with
      senders:=s.senders ++ [⟨b,b.bytes,.waitTurn false⟩],waiters:=s.waiters+1}
    have gone : queued.dead = true := dead
    have kept := takeTurn_dead gone entered
    exact kept
  | wakeTurn _ _ entered => exact takeTurn_dead dead entered
  | parksAgain _ _ alive => rw [dead] at alive; cases alive
  | completes => exact finished _ _
  | removed => exact finished _ _
  | writeCb called =>
    simp only [writeCb,dead,if_true] at called
    cases Option.some.inj called
    exact ⟨rfl,rfl⟩
  | readLate => exact ⟨dead,rfl⟩
  | readFails => exact ⟨rfl,rfl⟩
  | closeconn => exact ⟨rfl,rfl⟩

theorem runs_dead (dead : s.dead = true) (path : Machine.Runs step ok s labels s') :
    s'.dead = true ∧ s'.wire = s.wire := by
  induction path with
  | nil => exact ⟨dead,rfl⟩
  | snoc _ _ taken ih =>
    obtain ⟨still,same⟩ := step_dead ih.1 taken
    exact ⟨still,same.trans ih.2⟩

theorem Written.shape (written : Written s full part) :
    ∃ full' part', s.wire = full'.flatMap (frameAt s.senders) ++ part' ∧ full'.Nodup ∧ full ⊆ full' ∧
      (∀ k ∈ full', k < s.senders.length) ∧
      (part' = [] ∨ ∃ (k n : Nat), k ∉ full' ∧ k < s.senders.length ∧ n < (frameAt s.senders k).length ∧
        part' = (frameAt s.senders k).take n) := by
  have inside : ∀ k ∈ full, k < s.senders.length := by
    intro k member
    obtain ⟨sender,_,held,_⟩ := written.known k member
    exact (List.getElem?_eq_some_iff.mp held).1
  cases own : s.wpdu.buf with
  | none =>
    refine ⟨full,part,written.wire,written.nodup,fun _ => id,inside,(written.idle own).2.imp_right ?_⟩
    rintro ⟨_,k,n,fresh,known,bound,bytes⟩
    exact ⟨k,n,fresh,known,bound,bytes⟩
  | some k =>
    obtain ⟨fresh,sender,held,writing⟩ := written.busy k own
    have known := (List.getElem?_eq_some_iff.mp held).1
    have size : (frameAt s.senders k).length = sender.b.bytes.length := by rw [frameAt_eq held,frame_size]
    have cut : ∀ n, n < sender.b.bytes.length → part = (frame sender.b.bytes).take n →
        part = [] ∨ ∃ (k n : Nat), k ∉ full ∧ k < s.senders.length ∧ n < (frameAt s.senders k).length ∧
          part = (frameAt s.senders k).take n :=
      fun n short bytes => .inr ⟨k,n,fresh,known,by omega,by rw [frameAt_eq held]; exact bytes⟩
    cases writing with
    | failed n _ _ _ short bytes =>
      exact ⟨full,part,written.wire,written.nodup,fun _ => id,inside,cut n short bytes⟩
    | good n _ _ bound bytes =>
      rcases Nat.lt_or_ge n sender.b.bytes.length with short | complete
      · exact ⟨full,part,written.wire,written.nodup,fun _ => id,inside,cut n short bytes⟩
      · have whole : part = frameAt s.senders k := by
          rw [bytes,frameAt_eq held,List.take_of_length_le (by rw [frame_size]; omega)]
        refine ⟨full ++ [k],[],by rw [written.wire]; simp [whole],?_,List.subset_append_left _ _,?_,.inl rfl⟩
        · refine List.nodup_append.mpr ⟨written.nodup,List.nodup_singleton k,?_⟩
          intro a member b single
          rw [List.mem_singleton.mp single]
          rintro rfl
          exact fresh member
        · intro j member
          rcases List.mem_append.mp member with old | single
          · exact inside j old
          · rw [List.mem_singleton.mp single]; exact known

theorem frames_not_interleaved (path : Machine.Runs step Machine.free initial labels s) :
    (∃ (full : List Nat) (part : List UInt8), s.wire = full.flatMap (frameAt s.senders) ++ part ∧
      full.Nodup ∧ (∀ k ∈ full, k < s.senders.length) ∧
      (part = [] ∨ ∃ (k n : Nat), k ∉ full ∧ k < s.senders.length ∧ n < (frameAt s.senders k).length ∧
        part = (frameAt s.senders k).take n) ∧
      ∀ (k : Nat) sender, s.senders[k]? = some sender → sender.pc = .returned true → full.count k = 1) ∧
    (s.failed = true ∨ s.dead = true → ∀ more t, Machine.Runs step Machine.free s more t → t.wire = s.wire) := by
  obtain ⟨full,part,written⟩ := runs_written path
  obtain ⟨full',part',wire,nodup,subset,known,rest⟩ := written.shape
  refine ⟨⟨full',part',wire,nodup,known,rest,?_⟩,?_⟩
  · intro k sender held returned
    exact List.count_eq_one_of_mem nodup (subset (written.returned k sender held returned))
  · intro ended more t later
    exact (runs_dead (ended.elim written.stopped id) later).2

-- A second sender waits while the first one's PDU goes out in two pieces.
def hello : Buffer := ⟨List.replicate 24 7,by decide,by decide⟩
def world : Buffer := ⟨List.replicate 25 8,by decide,by decide⟩

theorem waiting_sender_follows :
    ∃ s, Machine.Runs step Machine.free initial [.send hello (.wrote 5),.send world .again,.writeCb (.wrote 19),
        .wakeComplete 0,.wakeTurn 1 (.wrote 25)] s ∧
      s.wire = frame hello.bytes ++ frame world.bytes ∧
      ∃ (full : List Nat) (part : List UInt8), s.wire = full.flatMap (frameAt s.senders) ++ part ∧
        full.count 0 = 1 ∧ full.count 1 = 1 := by
  have seen : (Machine.exec step initial [.send hello (.wrote 5),.send world .again,.writeCb (.wrote 19),
      .wakeComplete 0,.wakeTurn 1 (.wrote 25)]).map (fun s => (s.wire,s.senders.map Sender.pc)) =
      some (frame hello.bytes ++ frame world.bytes,[.returned true,.returned true]) := by decide +kernel
  obtain ⟨s,path,view⟩ := Machine.exec_free_observed seen
  obtain ⟨wire,pcs⟩ := Prod.mk.inj view
  obtain ⟨full,part,shape,_,_,_,counts⟩ := (frames_not_interleaved path).1
  have returned : ∀ k : Nat, k < 2 → full.count k = 1 := by
    intro k small
    have entry : (s.senders.map Sender.pc)[k]? = some (.returned true) := by
      rw [pcs]
      rcases Nat.lt_or_ge k 1 with zero | one
      · have : k = 0 := by omega
        subst this; rfl
      · have : k = 1 := by omega
        subst this; rfl
    rw [List.getElem?_map] at entry
    obtain ⟨sender,held,pc⟩ := Option.map_eq_some_iff.mp entry
    exact counts k sender held pc
  exact ⟨s,path,wire,full,part,shape,returned 0 (by decide),returned 1 (by decide)⟩

end YfsLab.Send
