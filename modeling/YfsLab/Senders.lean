import YfsLab.Lib.Counting
import YfsLab.PollLoop

namespace YfsLab.Senders
open Send
open Wakeups (pcs pcs_setSender writepdu_keeps)

variable {s s' : State} {k : Nat} {sender : Sender} {result : WriteResult} {full : List Nat} {part : List UInt8}

def isTurn : Pc → Bool
  | .waitTurn _ => true
  | _ => false

def inside : Pc → Bool
  | .returned _ => false
  | _ => true

-- waiters_ counts the senders that wait for their turn, and one of them that
-- was not signalled finds a PDU in wpdu_. The sender of that PDU, if it was not
-- signalled, finds bytes left to write.
structure Waits (places : List Pc) (s : State) : Prop where
  waiters : s.waiters = places.countP isTurn
  turn : .waitTurn false ∈ places → s.wpdu.buf ≠ none
  complete : s.dead = false → .waitComplete false ∈ places → s.wpdu.solong < s.wpdu.sz
  honest : s.dead = false → .returned false ∉ places

theorem initial_waits : Waits (pcs initial) initial :=
  ⟨rfl,by simp [pcs,initial],by simp [pcs,initial],by simp [pcs,initial]⟩

def called : Pc → Pc
  | .waitTurn _ => .waitTurn true
  | pc => pc

theorem calledTurn_pc (sender : Sender) : sender.calledTurn.pc = called sender.pc := by
  unfold Sender.calledTurn called
  split <;> simp_all

theorem inside_called (pc : Pc) : inside (called pc) = inside pc := by cases pc <;> rfl

theorem isTurn_called (pc : Pc) : isTurn (called pc) = isTurn pc := by cases pc <;> rfl

theorem pcs_finish (s : State) (k : Nat) (sender : Sender) : pcs (finish s k sender) =
    ((pcs s).set k (.returned (!s.dead && s.wpdu.solong == s.wpdu.sz))).map (if s.waiters > 0 then called else id) := by
  have wakes : Sender.pc ∘ Sender.calledTurn = called ∘ Sender.pc := funext calledTurn_pc
  unfold finish
  dsimp only
  split
  · rename_i waiting
    rw [if_pos (show s.waiters > 0 from waiting)]
    simp only [pcs,setSender,List.map_map,wakes]
    rw [← List.map_map,List.map_set]
  · rename_i nobody
    rw [if_neg (show ¬ s.waiters > 0 from nobody),List.map_id]
    simp only [pcs,setSender,List.map_set]

theorem finish_waiters (s : State) (k : Nat) (sender : Sender) : (finish s k sender).waiters = s.waiters := by
  unfold finish
  dsimp only
  split <;> rfl

theorem finish_free (s : State) (k : Nat) (sender : Sender) : (finish s k sender).wpdu = .null := by
  unfold finish
  dsimp only
  split <;> rfl

theorem place (held : s.senders[k]? = some sender) : (pcs s)[k]? = some sender.pc := by simp [pcs,held]

theorem placed {pc : Pc} (there : (pcs s)[k]? = some pc) : ∃ sender, s.senders[k]? = some sender ∧ sender.pc = pc := by
  simpa [pcs] using there

theorem member_old {places : List Pc} {pc pc' : Pc} (different : pc ≠ pc') (member : pc ∈ places.set k pc') :
    pc ∈ places := by
  rcases List.mem_or_eq_of_mem_set member with old | new
  · exact old
  · exact absurd new different

theorem member_other {places : List Pc} {pc pc' : Pc} (different : pc ≠ pc') (member : pc ∈ places.set k pc') (pc'' : Pc) :
    pc ∈ places.set k pc'' := by
  obtain ⟨j,there⟩ := List.mem_iff_getElem?.mp member
  rcases Machine.entry_cases there with ⟨_,same⟩ | ⟨elsewhere,old⟩
  · exact absurd same different
  · exact List.mem_of_getElem? ((Machine.entry_other elsewhere).trans old)

theorem complete_owner (written : Written s full part) (there : (pcs s)[k]? = some (.waitComplete signalled)) :
    s.wpdu.buf = some k := by
  obtain ⟨sender,held,pc⟩ := placed there
  exact (written.owner k sender held).mp (by rw [pc]; rfl)

theorem finish_waits (written : Written s full part) (held : s.senders[k]? = some sender) (holds : holding sender.pc = true)
    (ended : s.dead = true ∨ s.wpdu.solong = s.wpdu.sz) (waiters : s.waiters = (pcs s).countP isTurn)
    (honest : s.dead = false → .returned false ∉ pcs s) : Waits (pcs (finish s k sender)) (finish s k sender) := by
  have own := (written.owner k sender held).mp holds
  have idle : isTurn sender.pc = false := by
    cases pc : sender.pc with
    | waitTurn => rw [pc] at holds; cases holds
    | waitComplete | failing | returned => rfl
  have counted := Counting.count_set isTurn (.returned (!s.dead && s.wpdu.solong == s.wpdu.sz)) (place held)
  rw [idle] at counted
  simp only [isTurn,Bool.false_eq_true,if_false,Nat.add_zero] at counted
  have alone : ∀ signalled, .waitComplete signalled ∉ (pcs s).set k (.returned (!s.dead && s.wpdu.solong == s.wpdu.sz)) := by
    intro signalled member
    obtain ⟨j,there⟩ := List.mem_iff_getElem?.mp member
    rcases Machine.entry_cases there with ⟨_,same⟩ | ⟨different,before⟩
    · cases same
    · have both := complete_owner written before
      rw [own] at both
      exact different (Option.some.inj both).symm
  have truthful : s.dead = false → .returned false ∉ (pcs s).set k (.returned (!s.dead && s.wpdu.solong == s.wpdu.sz)) := by
    intro alive member
    rcases List.mem_or_eq_of_mem_set member with old | new
    · exact honest alive old
    · simp [alive,ended.resolve_left (by simp [alive])] at new
  rw [pcs_finish]
  split
  · constructor
    case waiters =>
      rw [finish_waiters,waiters,List.countP_map,← counted]
      congr 2
      funext pc
      exact (isTurn_called pc).symm
    case turn =>
      intro member
      obtain ⟨pc,_,same⟩ := List.mem_map.mp member
      cases pc <;> cases same
    case complete =>
      intro _ member
      obtain ⟨pc,there,same⟩ := List.mem_map.mp member
      cases pc <;> cases same
      exact absurd there (alone false)
    case honest =>
      intro alive member
      rw [(finish_keeps s k sender).1] at alive
      obtain ⟨pc,there,same⟩ := List.mem_map.mp member
      cases pc <;> cases same
      exact truthful alive there
  · rename_i nobody
    rw [List.map_id]
    constructor
    case waiters => rw [finish_waiters,waiters,counted]
    case turn =>
      intro member
      have some_ := List.countP_pos_iff.mpr ⟨_,member,(rfl : isTurn (.waitTurn false) = true)⟩
      omega
    case complete => exact fun _ member => absurd member (alone false)
    case honest =>
      intro alive
      rw [(finish_keeps s k sender).1] at alive
      exact truthful alive

theorem writepdu_frame (wrote : writepdu s result = some (succ,s')) :
    s'.wpdu.buf = s.wpdu.buf ∧ s'.waiters = s.waiters := by
  unfold writepdu at wrote
  split at wrote
  · cases Option.some.inj wrote; exact ⟨rfl,rfl⟩
  · split at wrote
    · cases Option.some.inj wrote; exact ⟨rfl,rfl⟩
    · split at wrote
      · cases wrote
      · split at wrote
        · cases wrote
        · cases result with
          | wrote n =>
            obtain ⟨_,wrote⟩ := Option.ite_none_right_eq_some.mp wrote
            cases Option.some.inj wrote; exact ⟨rfl,rfl⟩
          | again => cases Option.some.inj wrote; exact ⟨rfl,rfl⟩
          | error => cases Option.some.inj wrote; exact ⟨rfl,rfl⟩

theorem written_sizes (written : Written s full part) (alive : s.dead = false) (own : s.wpdu.buf = some k) :
    0 ≤ s.wpdu.solong ∧ s.wpdu.solong ≤ s.wpdu.sz ∧ s.wpdu.sz ≠ 0 := by
  obtain ⟨_,sender,_,writing⟩ := written.busy k own
  cases writing with
  | good n sz solong bound =>
    have headed := sender.b.headed
    simp only [rpcHeaderSz] at headed
    omega
  | failed n gone => rw [alive] at gone; cases gone

-- What becomes of the sender that has its turn: the connection is dead, or its
-- PDU is in wpdu_ and its first write fails, writes all of it, or does not.
inductive Turn (s : State) (k : Nat) (sender : Sender) : State → Prop where
  | dead : s.dead = true → Turn s k sender (setSender {s with waiters:=s.waiters-1} k {sender with pc:=.returned false})
  | failing {mid : State} {writer : Sender} : s.dead = false → s.wpdu.buf = none →
      pcs mid = (pcs s).set k (.waitComplete false) → mid.waiters = s.waiters-1 → mid.wpdu.buf = some k →
      Turn s k sender {setSender mid k {writer with pc:=.failing} with dead:=true}
  | finished {mid : State} {writer : Sender} {full : List Nat} {part : List UInt8} : s.dead = false →
      s.wpdu.buf = none → pcs mid = (pcs s).set k (.waitComplete false) → mid.waiters = s.waiters-1 →
      Written mid full part → mid.dead = false → mid.senders[k]? = some writer → mid.wpdu.solong = mid.wpdu.sz →
      Turn s k sender (finish mid k writer)
  | partly {mid : State} {full : List Nat} {part : List UInt8} : s.dead = false → s.wpdu.buf = none →
      pcs mid = (pcs s).set k (.waitComplete false) → mid.waiters = s.waiters-1 → Written mid full part →
      mid.dead = false → mid.wpdu.buf = some k → mid.wpdu.solong ≠ mid.wpdu.sz → Turn s k sender mid

theorem enter_turn (written : Written s full part) (held : s.senders[k]? = some sender)
    (pc : sender.pc = .waitTurn signalled) (free : s.dead = true ∨ s.wpdu.buf = none)
    (taken : enter s k sender result = some s') : Turn s k sender s' := by
  unfold enter at taken
  dsimp only at taken
  split at taken
  · rename_i dead
    cases Option.some.inj taken
    exact .dead dead
  · rename_i alive
    have alive : s.dead = false := by simpa using alive
    have none : s.wpdu.buf = none := free.resolve_left (by simp [alive])
    have installed := written.install alive none held pc (s.waiters-1)
    split at taken
    · cases taken
    · rename_i succ mid wrote
      obtain ⟨still,own,⟨writer,entry,_⟩,part',result⟩ := installed.writepdu alive rfl (Machine.entry_self held) wrote
      have places : pcs mid = (pcs s).set k (.waitComplete false) := by rw [(writepdu_keeps wrote).2,pcs_setSender]; rfl
      have waiters : mid.waiters = s.waiters-1 := (writepdu_frame wrote).2
      rw [entry] at taken
      dsimp only at taken
      split at taken
      · cases Option.some.inj taken
        exact .failing alive none places waiters own
      · rename_i good
        have good : succ = true := by simpa using good
        subst good
        have result : Written mid full part' := result
        split at taken
        · rename_i complete
          cases Option.some.inj taken
          exact .finished alive none places waiters result still entry complete
        · rename_i short
          cases Option.some.inj taken
          exact .partly alive none places waiters result still own short

-- The sender k is counted as a waiter till now. Nobody else is asleep:
-- with wpdu_ free, the others that wait for their turn have been signalled.
theorem Turn.waits (turn : Turn s k sender s') (there : (pcs s)[k]? = some pc)
    (waits : Waits ((pcs s).set k (.waitTurn true)) s) : Waits (pcs s') s' := by
  have leaves : ∀ pc', isTurn pc' = false → s.waiters - 1 = ((pcs s).set k pc').countP isTurn := by
    intro pc' idle
    have stands : ((pcs s).set k (.waitTurn true))[k]? = some (.waitTurn true) := Machine.entry_self there
    have counted := Counting.count_set isTurn pc' stands
    rw [List.set_set,idle] at counted
    simp only [isTurn,if_true,Bool.false_eq_true,if_false] at counted
    rw [waits.waiters]
    omega
  have truthful : ∀ pc', pc' ≠ .returned false → s.dead = false → .returned false ∉ (pcs s).set k pc' :=
    fun pc' different alive member => waits.honest alive (member_other (Ne.symm different) member _)
  cases turn with
  | dead gone =>
    have gone : s.dead = true := gone
    rw [pcs_setSender]
    constructor
    case waiters => exact leaves _ rfl
    case turn => exact fun member => waits.turn (member_other (by simp) member _)
    case complete => exact fun alive => by rw [show s.dead = false from alive] at gone; cases gone
    case honest => exact fun alive => by rw [show s.dead = false from alive] at gone; cases gone
  | @failing mid writer _ _ places waiters own =>
    have there : pcs (setSender mid k {writer with pc:=.failing}) = (pcs s).set k .failing := by
      rw [pcs_setSender,places,List.set_set]
    constructor
    case waiters =>
      apply waiters.trans
      exact (leaves .failing rfl).trans (by rw [← there]; rfl)
    case turn => exact fun _ => by simp [setSender,own]
    case complete => exact fun gone => by cases gone
    case honest => exact fun gone => by cases gone
  | finished alive _ places waiters written _ entry complete =>
    have stands := place entry
    rw [places,Machine.entry_self there] at stands
    apply finish_waits written entry (by rw [← Option.some.inj stands]; rfl) (.inr complete)
    · rw [waiters,places]
      exact leaves _ rfl
    · rw [places]
      exact fun _ => truthful _ (by simp) alive
  | partly alive _ places waiters written still own short =>
    constructor
    case waiters =>
      rw [waiters,places]
      exact leaves _ rfl
    case turn => simp [own]
    case complete =>
      intro _ _
      have bounded := (written_sizes written still own).2.1
      omega
    case honest =>
      rw [places]
      exact fun _ => truthful _ (by simp) alive

theorem takeTurn_turn (written : Written s full part) (held : s.senders[k]? = some sender)
    (pc : sender.pc = .waitTurn signalled) (taken : takeTurn s k sender result = some s') :
    (s.dead = false ∧ s.wpdu.buf ≠ none ∧ s' = setSender s k {sender with pc:=.waitTurn false}) ∨ Turn s k sender s' := by
  unfold takeTurn at taken
  split at taken
  · rename_i busy
    exact .inl ⟨busy.1,busy.2,(Option.some.inj taken).symm⟩
  · rename_i turn
    apply Or.inr
    apply enter_turn written held pc ?_ taken
    by_cases dead : s.dead = true
    · exact .inl dead
    · apply Or.inr
      by_contra busy
      exact turn ⟨by simpa using dead,busy⟩

theorem takeTurn_waits (written : Written s full part) (held : s.senders[k]? = some sender)
    (pc : sender.pc = .waitTurn signalled) (waits : Waits ((pcs s).set k (.waitTurn true)) s)
    (taken : takeTurn s k sender result = some s') : Waits (pcs s') s' := by
  rcases takeTurn_turn written held pc taken with ⟨_,busy,rfl⟩ | turn
  · have stands : ((pcs s).set k (.waitTurn true))[k]? = some (.waitTurn true) := Machine.entry_self (place held)
    have counted := Counting.count_set isTurn (.waitTurn false) stands
    rw [List.set_set] at counted
    simp only [isTurn,if_true] at counted
    rw [pcs_setSender]
    dsimp only
    constructor
    case waiters =>
      apply waits.waiters.trans
      omega
    case turn => exact fun _ => busy
    case complete => exact fun alive member => waits.complete alive (member_other (by simp) member _)
    case honest => exact fun alive member => waits.honest alive (member_other (by simp) member _)
  · exact turn.waits (place held) waits

theorem Waits.wakes (waits : Waits (pcs s) s) (there : (pcs s)[k]? = some (.waitTurn signalled)) :
    Waits ((pcs s).set k (.waitTurn true)) s := by
  have counted := Counting.count_set isTurn (.waitTurn true) there
  simp only [isTurn,if_true] at counted
  constructor
  case waiters =>
    apply waits.waiters.trans
    omega
  case turn => exact fun member => waits.turn (member_old (by simp) member)
  case complete => exact fun alive member => waits.complete alive (member_old (by simp) member)
  case honest => exact fun alive member => waits.honest alive (member_old (by simp) member)

theorem Waits.joins (waits : Waits (pcs s) s) (b : Buffer) :
    Waits ((pcs s ++ [Pc.waitTurn false]).set s.senders.length (.waitTurn true)) {s with
      senders:=s.senders ++ [⟨b,b.bytes,.waitTurn false⟩],waiters:=s.waiters+1} := by
  have last : (pcs s ++ [Pc.waitTurn false]).set s.senders.length (.waitTurn true) = pcs s ++ [.waitTurn true] := by
    have size : (pcs s).length = s.senders.length := by simp [pcs]
    rw [← size,List.set_append_right _ _ (Nat.le_refl _)]
    simp
  have others : ∀ {pc : Pc}, pc ≠ .waitTurn true → pc ∈ pcs s ++ [.waitTurn true] → pc ∈ pcs s := by
    intro pc different member
    rcases List.mem_append.mp member with old | new
    · exact old
    · exact absurd (List.mem_singleton.mp new) different
  rw [last]
  constructor
  case waiters => simp [waits.waiters,isTurn]
  case turn => exact fun member => waits.turn (others (by simp) member)
  case complete => exact fun alive member => waits.complete alive (others (by simp) member)
  case honest => exact fun alive member => waits.honest alive (others (by simp) member)

-- The signal on send_complete_ is for a sender that waits there and for no
-- other.
def completed : Pc → Pc
  | .waitComplete _ => .waitComplete true
  | pc => pc

theorem pcs_signal (s : State) : pcs (signalComplete s) = (pcs s).map completed := by
  have wakes : Sender.pc ∘ Sender.calledComplete = completed ∘ Sender.pc := by
    funext sender
    simp only [Function.comp_apply,Sender.calledComplete,completed]
    split <;> simp_all
  simp only [pcs,signalComplete,List.map_map,wakes]

theorem isTurn_completed (pc : Pc) : isTurn (completed pc) = isTurn pc := by cases pc <;> rfl

theorem inside_completed (pc : Pc) : inside (completed pc) = inside pc := by cases pc <;> rfl

theorem Waits.signal (waiters : s.waiters = (pcs s).countP isTurn) (turn : .waitTurn false ∈ pcs s → s.wpdu.buf ≠ none)
    (honest : s.dead = false → .returned false ∉ pcs s) : Waits (pcs (signalComplete s)) (signalComplete s) := by
  rw [pcs_signal]
  constructor
  case waiters =>
    rw [List.countP_map]
    apply waiters.trans
    congr 2
    funext pc
    exact (isTurn_completed pc).symm
  case turn =>
    intro member
    obtain ⟨pc,there,same⟩ := List.mem_map.mp member
    cases pc <;> cases same
    exact turn there
  case complete =>
    intro _ member
    obtain ⟨pc,_,same⟩ := List.mem_map.mp member
    cases pc <;> cases same
  case honest =>
    intro alive member
    obtain ⟨pc,there,same⟩ := List.mem_map.mp member
    cases pc <;> cases same
    exact honest alive there

theorem writeCb_waits (waits : Waits (pcs s) s) (taken : writeCb s result = some s') : Waits (pcs s') s' := by
  unfold writeCb at taken
  split at taken
  · cases Option.some.inj taken
    exact ⟨waits.waiters,waits.turn,waits.complete,waits.honest⟩
  · split at taken
    · cases Option.some.inj taken; exact waits
    · split at taken
      · cases taken
      · rename_i succ mid wrote
        obtain ⟨dead,places⟩ := writepdu_keeps wrote
        obtain ⟨buf,waiters⟩ := writepdu_frame wrote
        have counted : mid.waiters = (pcs mid).countP isTurn := by rw [waiters,places]; exact waits.waiters
        have turn : .waitTurn false ∈ pcs mid → mid.wpdu.buf ≠ none := by rw [buf,places]; exact waits.turn
        have honest : mid.dead = false → .returned false ∉ pcs mid := by rw [dead,places]; exact waits.honest
        split at taken
        · cases Option.some.inj taken
          exact .signal counted turn (fun gone => by cases gone)
        · split at taken
          · rename_i short
            cases Option.some.inj taken
            exact ⟨counted,turn,fun _ _ => short,honest⟩
          · cases Option.some.inj taken
            exact .signal counted turn honest

theorem wakeComplete_cases (taken : step s (.wakeComplete k) = some s') :
    ∃ sender signalled, s.senders[k]? = some sender ∧ sender.pc = .waitComplete signalled ∧
      ((s.dead = false ∧ s.wpdu.solong < s.wpdu.sz ∧ s' = setSender s k {sender with pc:=.waitComplete false}) ∨
        (¬ (s.dead = false ∧ 0 ≤ s.wpdu.solong ∧ s.wpdu.solong < s.wpdu.sz) ∧ s' = finish s k sender)) := by
  unfold step at taken
  obtain ⟨_,taken⟩ := Option.ite_none_left_eq_some.mp taken
  dsimp only at taken
  split at taken
  · cases taken
  · rename_i sender held
    split at taken
    · rename_i signalled pc
      refine ⟨sender,signalled,held,pc,?_⟩
      split at taken
      · rename_i again
        exact .inl ⟨again.1,again.2.2,(Option.some.inj taken).symm⟩
      · rename_i ended
        exact .inr ⟨ended,(Option.some.inj taken).symm⟩
    · cases taken

theorem parksAgain_waits (waits : Waits (pcs s) s) (held : s.senders[k]? = some sender)
    (pc : sender.pc = .waitComplete signalled) (short : s.wpdu.solong < s.wpdu.sz) :
    Waits (pcs (setSender s k {sender with pc:=.waitComplete false})) (setSender s k {sender with pc:=.waitComplete false}) := by
  have counted := Counting.count_set isTurn (.waitComplete false) (place held)
  rw [pc] at counted
  simp only [isTurn,Bool.false_eq_true,if_false] at counted
  rw [pcs_setSender]
  dsimp only
  constructor
  case waiters =>
    apply waits.waiters.trans
    omega
  case turn => exact fun member => waits.turn (member_old (by simp) member)
  case complete => exact fun _ _ => short
  case honest => exact fun alive member => waits.honest alive (member_old (by simp) member)

theorem step_waits (written : Written s full part) (waits : Waits (pcs s) s) (taken : step s label = some s') :
    Waits (pcs s') s' := by
  cases label with
  | wakeComplete k =>
    obtain ⟨sender,signalled,held,pc,⟨_,short,rfl⟩ | ⟨ended,rfl⟩⟩ := wakeComplete_cases taken
    · exact parksAgain_waits waits held pc short
    · have own := complete_owner written ((place held).trans (by rw [pc]))
      exact finish_waits written held (by rw [pc]; rfl) (written.ended own ended) waits.waiters waits.honest
  | send b result =>
    cases step_sound taken with
    | send entered =>
      apply takeTurn_waits (written.append b (s.waiters+1)) ?_ rfl ?_ entered
      · simp
      · have joined := waits.joins b
        simpa [pcs] using joined
  | wakeTurn k result =>
    cases step_sound taken with
    | wakeTurn held pc entered =>
      exact takeTurn_waits written held pc (waits.wakes ((place held).trans (by rw [pc]))) entered
  | removed k =>
    cases step_sound taken with
    | removed held pc =>
      exact finish_waits written held (by rw [pc]; rfl) (.inl (written.failing _ _ held pc)) waits.waiters waits.honest
  | writeCb result =>
    cases step_sound taken with
    | writeCb called => exact writeCb_waits waits called
  | readFails =>
    cases step_sound taken with
    | readLate => exact waits
    | readFails => exact .signal waits.waiters waits.turn (fun gone => by cases gone)
  | closeconn =>
    cases step_sound taken with
    | closeconn => exact ⟨waits.waiters,waits.turn,(fun gone => by cases gone),(fun gone => by cases gone)⟩

theorem takeTurn_buf (written : Written s full part) (held : s.senders[k]? = some sender)
    (pc : sender.pc = .waitTurn signalled) (taken : takeTurn s k sender result = some s') :
    s'.wpdu.buf = s.wpdu.buf ∨ s'.wpdu.buf = none ∨ s'.wpdu.buf = some k := by
  rcases takeTurn_turn written held pc taken with ⟨_,_,rfl⟩ | turn
  · exact .inl rfl
  · cases turn with
    | dead => exact .inl rfl
    | failing _ _ _ _ own => exact .inr (.inr own)
    | finished => exact .inr (.inl (by rw [finish_free]; rfl))
    | partly _ _ _ _ _ _ own => exact .inr (.inr own)

theorem finish_failing (failing : .failing ∈ pcs (finish s k sender)) : .failing ∈ pcs s := by
  rw [pcs_finish] at failing
  obtain ⟨pc,member,same⟩ := List.mem_map.mp failing
  have kept : pc = .failing := by
    split at same
    · cases pc <;> cases same
      rfl
    · exact same
  subst kept
  exact member_old (by simp) member

theorem takeTurn_failing (written : Written s full part) (held : s.senders[k]? = some sender)
    (pc : sender.pc = .waitTurn signalled) (taken : takeTurn s k sender result = some s') (failing : .failing ∈ pcs s') :
    .failing ∈ pcs s ∨ s.dead = false ∧ s'.dead = true ∧ s'.wpdu.buf = some k := by
  rcases takeTurn_turn written held pc taken with ⟨_,_,rfl⟩ | turn
  · rw [pcs_setSender] at failing
    exact .inl (member_old (by simp) failing)
  · cases turn with
    | dead =>
      rw [pcs_setSender] at failing
      exact .inl (member_old (by simp) failing)
    | failing alive _ _ _ own => exact .inr ⟨alive,rfl,own⟩
    | finished _ _ places =>
      have before := finish_failing failing
      rw [places] at before
      exact .inl (member_old (by simp) before)
    | partly _ _ places =>
      rw [places] at failing
      exact .inl (member_old (by simp) failing)

theorem takeTurn_gone (dead : s.dead = true) (taken : takeTurn s k sender result = some s') :
    pcs s' = (pcs s).set k (.returned false) := by
  unfold takeTurn at taken
  rw [if_neg (by simp [dead])] at taken
  unfold enter at taken
  dsimp only at taken
  rw [if_pos dead] at taken
  cases Option.some.inj taken
  exact pcs_setSender _ _ _

theorem signal_failing (failing : .failing ∈ pcs (signalComplete s)) : .failing ∈ pcs s := by
  rw [pcs_signal] at failing
  obtain ⟨pc,member,same⟩ := List.mem_map.mp failing
  cases pc <;> cases same
  exact member

theorem writeCb_frame (taken : writeCb s result = some s') :
    s'.wpdu.buf = s.wpdu.buf ∧ (.failing ∈ pcs s' → .failing ∈ pcs s) := by
  unfold writeCb at taken
  split at taken
  · cases Option.some.inj taken; exact ⟨rfl,id⟩
  · split at taken
    · cases Option.some.inj taken; exact ⟨rfl,id⟩
    · split at taken
      · cases taken
      · rename_i succ mid wrote
        have places := (writepdu_keeps wrote).2
        have buf := (writepdu_frame wrote).1
        split at taken
        · cases Option.some.inj taken
          refine ⟨buf,fun failing => ?_⟩
          have before : .failing ∈ pcs mid := signal_failing failing
          rwa [places] at before
        · split at taken
          · cases Option.some.inj taken
            exact ⟨buf,fun failing => by rwa [places] at failing⟩
          · cases Option.some.inj taken
            refine ⟨buf,fun failing => ?_⟩
            have before := signal_failing failing
            rwa [places] at before

theorem writepdu_all (own : s.wpdu.buf = some k) (held : s.senders[k]? = some sender) (begun : 0 ≤ s.wpdu.solong)
    (bounded : s.wpdu.solong ≤ s.wpdu.sz) :
    ∃ s', writepdu s (.wrote (s.wpdu.sz - s.wpdu.solong).toNat) = some (true,s') ∧ s'.wpdu.solong = s'.wpdu.sz := by
  have left : ((s.wpdu.sz - s.wpdu.solong).toNat : Int) = s.wpdu.sz - s.wpdu.solong := Int.toNat_of_nonneg (by omega)
  unfold writepdu
  rw [if_neg (by omega)]
  split
  · rename_i complete
    exact ⟨s,rfl,complete⟩
  · simp only [own,held]
    refine ⟨_,if_pos (le_of_eq left),?_⟩
    dsimp only [setSender]
    omega

theorem finish_count (held : s.senders[k]? = some sender) (unfinished : inside sender.pc = true) :
    (pcs (finish s k sender)).countP inside + 1 = (pcs s).countP inside := by
  have counted := Counting.count_set inside (.returned (!s.dead && s.wpdu.solong == s.wpdu.sz)) (place held)
  rw [unfinished] at counted
  simp only [inside,if_true,Bool.false_eq_true,if_false] at counted
  have same : inside ∘ (if s.waiters > 0 then called else id) = inside := by
    funext pc
    split
    · exact inside_called pc
    · rfl
  rw [pcs_finish,List.countP_map,same]
  omega

theorem takes_turn (held : s.senders[k]? = some sender) (pc : sender.pc = .waitTurn signalled) (free : s.wpdu.buf = none) :
    ∃ s', takeTurn s k sender (.wrote sender.b.bytes.length) = some s' ∧
      (pcs s').countP inside + 1 = (pcs s).countP inside := by
  have counted : ∀ pc', inside pc' = true → ((pcs s).set k pc').countP inside = (pcs s).countP inside := by
    intro pc' unfinished
    have swapped := Counting.count_set inside pc' (place held)
    rw [pc,unfinished] at swapped
    simp only [inside,if_true] at swapped
    omega
  unfold takeTurn
  rw [if_neg (by simp [free])]
  unfold enter
  dsimp only
  split
  · refine ⟨_,rfl,?_⟩
    have returned := Counting.count_set inside (.returned false) (place held)
    rw [pc] at returned
    simp only [inside,if_true,Bool.false_eq_true,if_false] at returned
    rw [pcs_setSender]
    exact returned
  · let installed := setSender {s with waiters:=s.waiters-1,wpdu:=⟨some k,sender.b.bytes.length,0⟩} k
      {sender with pc:=.waitComplete false}
    have entry : installed.senders[k]? = some {sender with pc:=.waitComplete false} := Machine.entry_self held
    obtain ⟨mid,wrote,complete⟩ := writepdu_all (s:=installed) rfl entry (Int.le_refl 0) (Int.natCast_nonneg _)
    have all : ((installed.wpdu.sz - installed.wpdu.solong).toNat) = sender.b.bytes.length := by
      simp [installed,setSender]
    rw [all] at wrote
    have places : pcs mid = (pcs s).set k (.waitComplete false) := by
      rw [(writepdu_keeps wrote).2,pcs_setSender]
      rfl
    have stands : (pcs mid)[k]? = some (.waitComplete false) := by
      rw [places]
      exact Machine.entry_self (place held)
    obtain ⟨writer,found,writing⟩ := placed stands
    rw [wrote]
    dsimp only
    rw [found]
    dsimp only
    rw [if_neg (by simp),if_pos complete]
    refine ⟨_,rfl,?_⟩
    rw [finish_count found (by rw [writing]; rfl),places]
    exact counted _ rfl

theorem writeCb_all (written : Written s full part) (alive : s.dead = false) (own : s.wpdu.buf = some k) :
    ∃ s', writeCb s (.wrote (s.wpdu.sz - s.wpdu.solong).toNat) = some s' ∧ s'.dead = false ∧
      s'.wpdu.solong = s'.wpdu.sz ∧ pcs s' = (pcs s).map completed := by
  obtain ⟨_,sender,held,_⟩ := written.busy k own
  obtain ⟨begun,bounded,sized⟩ := written_sizes written alive own
  obtain ⟨mid,wrote,complete⟩ := writepdu_all own held begun bounded
  obtain ⟨dead,places⟩ := writepdu_keeps wrote
  refine ⟨signalComplete mid,?_,dead.trans alive,complete,?_⟩
  · unfold writeCb
    rw [if_neg (by simp [alive]),if_neg sized,wrote]
    dsimp only
    rw [if_neg (by simp),if_neg (by omega)]
  · rw [pcs_signal,places]

theorem writeCb_alive (written : Written s full part) (alive : s.dead = false) (fine : result ≠ .error)
    (taken : writeCb s result = some s') : s'.dead = false := by
  unfold writeCb at taken
  rw [if_neg (by simp [alive])] at taken
  split at taken
  · cases Option.some.inj taken; exact alive
  · rename_i sized
    have begun : 0 ≤ s.wpdu.solong := by
      cases own : s.wpdu.buf with
      | none =>
        have null := (written.idle own).1
        simp [null,Charbuf.null] at sized
      | some k => exact (written_sizes written alive own).1
    split at taken
    · cases taken
    · rename_i succ mid wrote
      have dead := (writepdu_keeps wrote).1.trans alive
      split at taken
      · rename_i failed
        exact absurd ((PollLoop.writepdu_running begun wrote).2 failed) fine
      · split at taken
        · cases Option.some.inj taken; exact dead
        · cases Option.some.inj taken; exact dead

def buffers (s : State) : List Buffer := s.senders.map Sender.b

theorem buffers_setSender {sender' : Sender} (held : s.senders[k]? = some sender) (same : sender'.b = sender.b) :
    buffers (setSender s k sender') = buffers s := by
  have entry : (buffers s)[k]? = some sender.b := by simp [buffers,held]
  obtain ⟨bound,here⟩ := List.getElem?_eq_some_iff.mp entry
  simp only [buffers,setSender,List.map_set]
  show (buffers s).set k sender'.b = buffers s
  rw [same,← here,List.set_getElem_self]

theorem writepdu_buffers (wrote : writepdu s result = some (succ,s')) : buffers s' = buffers s := by
  unfold writepdu at wrote
  split at wrote
  · cases Option.some.inj wrote; rfl
  · split at wrote
    · cases Option.some.inj wrote; rfl
    · split at wrote
      · cases wrote
      · rename_i k own
        split at wrote
        · cases wrote
        · rename_i sender held
          have same : ∀ mem, buffers (setSender s k {sender with mem:=mem}) = buffers s :=
            fun mem => buffers_setSender held rfl
          cases result with
          | wrote n =>
            obtain ⟨_,wrote⟩ := Option.ite_none_right_eq_some.mp wrote
            cases Option.some.inj wrote; exact same _
          | again => cases Option.some.inj wrote; exact same _
          | error => cases Option.some.inj wrote; exact same _

theorem map_buffers {change : Sender → Sender} (same : ∀ sender, (change sender).b = sender.b) :
    buffers {s with senders:=s.senders.map change} = buffers s := by
  simp only [buffers,List.map_map]
  exact List.map_congr_left fun sender _ => same sender

theorem finish_buffers (held : s.senders[k]? = some sender) : buffers (finish s k sender) = buffers s := by
  have returned : ∀ ret, buffers (setSender {s with wpdu:=.null} k {sender with pc:=.returned ret}) = buffers s :=
    fun ret => buffers_setSender (s:={s with wpdu:=.null}) held rfl
  unfold finish
  dsimp only
  split
  · apply (map_buffers fun sender => ?_).trans (returned _)
    unfold Sender.calledTurn
    split <;> rfl
  · exact returned _

theorem signal_buffers (s : State) : buffers (signalComplete s) = buffers s := by
  apply map_buffers
  intro sender
  unfold Sender.calledComplete
  split <;> rfl

theorem takeTurn_buffers (held : s.senders[k]? = some sender) (taken : takeTurn s k sender result = some s') :
    buffers s' = buffers s := by
  unfold takeTurn at taken
  split at taken
  · cases Option.some.inj taken
    exact buffers_setSender held rfl
  · unfold enter at taken
    dsimp only at taken
    split at taken
    · cases Option.some.inj taken
      exact buffers_setSender (s:={s with waiters:=s.waiters-1}) held rfl
    · split at taken
      · cases taken
      · rename_i succ mid wrote
        have kept : buffers mid = buffers s := by
          apply (writepdu_buffers wrote).trans
          exact buffers_setSender (s:={s with waiters:=s.waiters-1,wpdu:=⟨some k,sender.b.bytes.length,0⟩}) held rfl
        split at taken
        · cases taken
        · rename_i writer entry
          split at taken
          · cases Option.some.inj taken
            have failing : buffers (setSender mid k {writer with pc:=.failing}) = buffers mid := buffers_setSender entry rfl
            exact failing.trans kept
          · split at taken
            · cases Option.some.inj taken
              exact (finish_buffers entry).trans kept
            · cases Option.some.inj taken
              exact kept

theorem writeCb_buffers (taken : writeCb s result = some s') : buffers s' = buffers s := by
  unfold writeCb at taken
  split at taken
  · cases Option.some.inj taken; rfl
  · split at taken
    · cases Option.some.inj taken; rfl
    · split at taken
      · cases taken
      · rename_i succ mid wrote
        have kept := writepdu_buffers wrote
        split at taken
        · cases Option.some.inj taken
          exact (signal_buffers _).trans kept
        · split at taken
          · cases Option.some.inj taken; exact kept
          · cases Option.some.inj taken
            exact (signal_buffers _).trans kept

theorem step_buffers (quiet : ∀ b result, label ≠ .send b result) (taken : step s label = some s') :
    buffers s' = buffers s := by
  cases step_sound taken with
  | send => exact absurd rfl (quiet _ _)
  | wakeTurn held _ entered => exact takeTurn_buffers held entered
  | parksAgain held => exact buffers_setSender held rfl
  | completes held => exact finish_buffers held
  | removed held => exact finish_buffers held
  | writeCb called => exact writeCb_buffers called
  | readLate | closeconn => rfl
  | readFails => exact signal_buffers _

theorem frameAt_buffers (same : buffers s' = buffers s) : frameAt s'.senders = frameAt s.senders := by
  have through : ∀ (t : State) j, frameAt t.senders j = match (buffers t)[j]? with
      | none => []
      | some b => frame b.bytes := by
    intro t j
    simp only [frameAt,buffers,List.getElem?_map]
    cases t.senders[j]? <;> rfl
  funext j
  rw [through s' j,through s j,same]

theorem all_written (written : Written s full part) (waits : Waits (pcs s) s) (alive : s.dead = false)
    (left : (pcs s).countP inside = 0) : (∀ sender ∈ s.senders, sender.pc = .returned true) ∧
      full.Perm (List.range s.senders.length) ∧ s.wire = full.flatMap (frameAt s.senders) := by
  have returned : ∀ sender ∈ s.senders, sender.pc = .returned true := by
    intro sender member
    have there : sender.pc ∈ pcs s := List.mem_map_of_mem member
    have outside := List.countP_eq_zero.mp left _ there
    cases pc : sender.pc with
    | returned ret =>
      cases ret with
      | true => rfl
      | false =>
        rw [pc] at there
        exact absurd there (waits.honest alive)
    | waitTurn | waitComplete | failing => simp [pc,inside] at outside
  have free : s.wpdu.buf = none := by
    by_contra busy
    obtain ⟨k,own⟩ := Option.ne_none_iff_exists'.mp busy
    obtain ⟨_,sender,held,_⟩ := written.busy k own
    have holds := (written.owner k sender held).mpr own
    rw [returned sender (List.mem_of_getElem? held)] at holds
    cases holds
  refine ⟨returned,(List.perm_ext_iff_of_nodup written.nodup List.nodup_range).mpr fun k => ?_,?_⟩
  · rw [List.mem_range]
    constructor
    · intro member
      obtain ⟨_,_,held,_⟩ := written.known k member
      exact (List.getElem?_eq_some_iff.mp held).1
    · intro bound
      have held := List.getElem?_eq_getElem bound
      exact written.returned k _ held (returned _ (List.getElem_mem bound))
  · have nothing : part = [] := by
      rcases (written.idle free).2 with empty | ⟨gone,_⟩
      · exact empty
      · rw [alive] at gone; cases gone
    rw [written.wire,nothing,List.append_nil]

end YfsLab.Senders
