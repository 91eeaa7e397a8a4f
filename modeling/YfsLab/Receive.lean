import YfsLab.Lib.Runs
import YfsLab.Marshall

namespace YfsLab.Receive

-- errno as far as the connection looks at it.
inductive Errno where
  | EAGAIN
  | other
  deriving DecidableEq, Repr

-- The results of read().
inductive ReadResult where
  | data (n : Nat)
  | eof
  | error (errno : Errno)
  deriving DecidableEq, Repr

-- connection::charbuf on the receiving side. `buf` holds the bytes stored so
-- far, `cap` is the size that was asked from malloc.
structure Charbuf where
  buf : Option (List UInt8)
  cap : Nat
  sz : Int
  solong : Int
  deriving DecidableEq, Repr

def Charbuf.null : Charbuf := ⟨none,0,0,0⟩

-- One connection as its poll thread sees it. `stream` is what the peer has sent
-- and was not read yet; `watched` is whether the callbacks are registered;
-- `aborted` is a failed assertion.
structure State where
  stream : List UInt8
  errno : Errno
  rpdu : Charbuf
  dead : Bool
  watched : Bool
  accepted : List (List UInt8)
  aborted : Bool
  deriving DecidableEq, Repr

def initial (stream : List UInt8) (errno : Errno) : State :=
  {stream:=stream,errno:=errno,rpdu:=.null,dead:=false,watched:=true,accepted:=[],aborted:=false}

def ntohl : List UInt8 → Int
  | [a,b,c,d] => (Words.join32 a b c d).toInt32.toInt
  | _ => 0

-- The second read of readpdu. A result of 0 does not set errno, so the test of
-- errno after it looks at whatever an earlier call has left there.
def readBody (s : State) : ReadResult → Option (Bool × State)
  | .data n =>
    if 0 < n ∧ (n : Int) ≤ s.rpdu.sz - s.rpdu.solong ∧ n ≤ s.stream.length then
      some (true,{s with
        stream:=s.stream.drop n
        rpdu:={s.rpdu with buf:=s.rpdu.buf.map (· ++ s.stream.take n),solong:=s.rpdu.solong+n}})
    else none
  | .eof => if s.errno = .EAGAIN then some (true,s) else some (false,{s with rpdu:=.null})
  | .error errno =>
    if errno = .EAGAIN then some (true,{s with errno:=errno})
    else some (false,{s with errno:=errno,rpdu:=.null})

-- The conversion of sz + sizeof(sz) to size_t. malloc has no object of 2^63
-- bytes or more.
def mallocSize (sz : Int) : Nat := ((sz + rpcSzSize) % 2^64).toNat

-- What readpdu does once the four bytes of the size are there.
def newPdu (s : State) (sz1 : List UInt8) (second : ReadResult) : Option (Bool × State) :=
  if ntohl sz1 > maxPdu then some (false,s)
  else if s.rpdu.buf.isSome ∨ mallocSize (ntohl sz1) ≥ 2^63 then
    some (false,{s with rpdu:={s.rpdu with sz:=ntohl sz1},aborted:=true})
  else readBody {s with rpdu:=⟨some sz1,mallocSize (ntohl sz1),ntohl sz1,rpcSzSize⟩} second

-- connection::readpdu with the results of its one or two reads.
def readpdu (s : State) (first second : ReadResult) : Option (Bool × State) :=
  if s.rpdu.sz = 0 then
    match first with
    | .eof => some (false,s)
    | .error errno => some (false,{s with errno:=errno,aborted:=decide (errno = .EAGAIN)})
    | .data n =>
      if 0 < n ∧ n ≤ rpcSzSize ∧ n ≤ s.stream.length then
        if n ≠ rpcSzSize then some (false,{s with stream:=s.stream.drop n})
        else newPdu {s with stream:=s.stream.drop n} (s.stream.take n) second
      else none
  else readBody s second

-- The call of got_pdu at the end of read_cb.
def offer (s : State) (accepts : Bool) : State :=
  match s.rpdu.buf with
  | none => s
  | some b =>
    if s.rpdu.sz = s.rpdu.solong ∧ accepts then {s with accepted:=s.accepted ++ [b],rpdu:=.null} else s

def settle (succ : Bool) (s : State) : State := if succ then s else {s with watched:=false,dead:=true}

def readCb (s : State) (first second : ReadResult) (accepts : Bool) : Option State :=
  if s.dead then some s
  else if s.rpdu.buf = none ∨ s.rpdu.solong < s.rpdu.sz then
    (readpdu s first second).map fun (succ,s) => if s.aborted then s else offer (settle succ s) accepts
  else some (offer s accepts)

def reading (e : State) (first second : ReadResult) : Option State :=
  if e.dead then some e
  else if e.rpdu.buf = none ∨ e.rpdu.solong < e.rpdu.sz then
    (readpdu e first second).map fun (succ,e) => if e.aborted then e else settle succ e
  else some e

def Complete (e : State) : Prop := e.rpdu.buf.isSome ∧ e.rpdu.sz = e.rpdu.solong

instance (e : State) : Decidable (Complete e) := inferInstanceAs (Decidable (_ ∧ _))

-- Other threads may mark the connection dead, and other calls of the poll
-- thread may fail.
inductive Label where
  | readCb (first second : ReadResult) (accepts : Bool)
  | dies
  | fails (errno : Errno)
  deriving DecidableEq, Repr

def step (s : State) (label : Label) : Option State :=
  if s.aborted then none else
  match label with
  | .readCb first second accepts => readCb s first second accepts
  | .dies => some {s with dead:=true}
  | .fails errno => some {s with errno:=errno}

def offered (e : State) (first second : ReadResult) : Option (List UInt8) :=
  (reading e first second).bind fun e' =>
    if ¬ (e.dead ∨ e'.aborted) ∧ e'.rpdu.sz = e'.rpdu.solong then e'.rpdu.buf else none

def gotPdus (s : State) : Label → List (List UInt8 × Bool)
  | .readCb first second accepts => (offered s first second).toList.map (·,accepts)
  | .dies | .fails _ => []

abbrev Offers : Type := List (List UInt8 × Bool)

def acceptedOffers (offers : Offers) : List (List UInt8) := (offers.filter Prod.snd).map Prod.fst

theorem acceptedOffers_append (first second : Offers) :
    acceptedOffers (first ++ second) = acceptedOffers first ++ acceptedOffers second := by
  simp [acceptedOffers]

-- Every PDU that was offered is accepted, at once or at a later offer.
def AllTaken : Offers → Prop
  | [] => True
  | (b,took) :: rest => (took = true ∨ (b,true) ∈ rest) ∧ AllTaken rest

instance : (offers : Offers) → Decidable (AllTaken offers)
  | [] => inferInstanceAs (Decidable True)
  | (b,took) :: rest =>
    have : Decidable (AllTaken rest) := instDecidableAllTaken rest
    inferInstanceAs (Decidable ((took = true ∨ (b,true) ∈ rest) ∧ AllTaken rest))

theorem allTaken_accepted {offers : Offers} (all : ∀ offer ∈ offers, offer.2 = true) : AllTaken offers := by
  induction offers with
  | nil => exact trivial
  | cons offer rest ih =>
    exact ⟨.inl (all offer List.mem_cons_self),ih fun later member => all later (List.mem_cons_of_mem _ member)⟩

theorem allTaken_last {before : Offers} (all : AllTaken (before ++ [(b,false)])) : False := by
  induction before with
  | nil => simp [AllTaken] at all
  | cons offer rest ih => exact ih all.2

section Offers
variable {e e' : State} {first second : ReadResult} {accepts succ : Bool} {offers : Offers}

theorem readCb_split (running : e.aborted = false) : readCb e first second accepts =
    (reading e first second).map fun e' => if e.dead ∨ e'.aborted then e' else offer e' accepts := by
  unfold readCb reading
  split
  · rename_i dead; simp [dead]
  · rename_i alive
    split
    · rw [Option.map_map]
      congr 1
      funext ⟨succ,after⟩
      cases stopped : after.aborted with
      | true => simp [stopped]
      | false => cases succ <;> simp [stopped,alive,settle]
    · simp [alive,running]

def Sane (e : State) : Prop := e.rpdu.buf = none ∨ 0 ≤ e.rpdu.solong

theorem readBody_sane (sane : Sane e) (running : e.aborted = false) (read : readBody e second = some (succ,e')) :
    Sane e' ∧ (e'.aborted = true → e'.rpdu.buf = none) := by
  unfold readBody at read
  split at read
  · split at read
    · cases Option.some.inj read
      refine ⟨?_,by simp [running]⟩
      rcases sane with none | stored
      · exact .inl (by simp [none])
      · exact .inr (by dsimp only; omega)
    · cases read
  · split at read
    · cases Option.some.inj read; exact ⟨sane,by simp [running]⟩
    · cases Option.some.inj read; exact ⟨.inl rfl,fun _ => rfl⟩
  · split at read
    · cases Option.some.inj read; exact ⟨sane,by simp [running]⟩
    · cases Option.some.inj read; exact ⟨.inl rfl,fun _ => rfl⟩

theorem readpdu_sane (sane : Sane e) (running : e.aborted = false)
    (more : e.rpdu.buf = none ∨ e.rpdu.solong < e.rpdu.sz) (read : readpdu e first second = some (succ,e')) :
    Sane e' ∧ (e'.aborted = true → e'.rpdu.buf = none) := by
  unfold readpdu at read
  split at read
  · rename_i empty
    have missing : e.rpdu.buf = none := by
      rcases more with missing | shorter
      · exact missing
      · rcases sane with missing | stored
        · exact missing
        · omega
    split at read
    · cases Option.some.inj read; exact ⟨sane,by simp [running]⟩
    · cases Option.some.inj read; exact ⟨sane,fun _ => missing⟩
    · split at read
      · split at read
        · cases Option.some.inj read; exact ⟨sane,by simp [running]⟩
        · unfold newPdu at read
          split at read
          · cases Option.some.inj read; exact ⟨sane,by simp [running]⟩
          · split at read
            · cases Option.some.inj read; exact ⟨.inl missing,fun _ => missing⟩
            · refine readBody_sane ?_ ?_ read
              · exact .inr (by simp [rpcSzSize])
              · exact running
      · cases read
  · exact readBody_sane sane running read

theorem reading_sane (sane : Sane e) (running : e.aborted = false) (read : reading e first second = some e') :
    Sane e' ∧ (e'.aborted = true → ¬ Complete e') := by
  unfold reading at read
  split at read
  · cases Option.some.inj read; exact ⟨sane,by simp [running]⟩
  · split at read
    · rename_i more
      obtain ⟨⟨succ,after⟩,read,same⟩ := Option.map_eq_some_iff.mp read
      obtain ⟨sane,missing⟩ := readpdu_sane sane running more read
      dsimp only at same
      split at same
      · rename_i stopped
        subst same
        exact ⟨sane,fun _ complete => by simp [Complete,missing stopped] at complete⟩
      · rename_i going
        subst same
        cases succ with
        | true => exact ⟨sane,by simp [settle,going]⟩
        | false => exact ⟨sane,by simp [settle,going]⟩
    · cases Option.some.inj read; exact ⟨sane,by simp [running]⟩

theorem readBody_accepted (read : readBody e second = some (succ,e')) : e'.accepted = e.accepted := by
  unfold readBody at read
  split at read
  · obtain ⟨_,same⟩ := Option.ite_none_right_eq_some.mp read
    cases Option.some.inj same
    rfl
  · split at read <;> cases Option.some.inj read <;> rfl
  · split at read <;> cases Option.some.inj read <;> rfl

theorem readpdu_accepted (read : readpdu e first second = some (succ,e')) : e'.accepted = e.accepted := by
  unfold readpdu at read
  split at read
  · split at read
    · cases Option.some.inj read; rfl
    · cases Option.some.inj read; rfl
    · split at read
      · split at read
        · cases Option.some.inj read; rfl
        · unfold newPdu at read
          split at read
          · cases Option.some.inj read; rfl
          · split at read
            · cases Option.some.inj read; rfl
            · have kept := readBody_accepted read
              exact kept
      · cases read
  · exact readBody_accepted read

theorem reading_accepted (read : reading e first second = some e') : e'.accepted = e.accepted := by
  unfold reading at read
  split at read
  · cases Option.some.inj read; rfl
  · split at read
    · obtain ⟨⟨succ,after⟩,found,same⟩ := Option.map_eq_some_iff.mp read
      subst same
      rw [← readpdu_accepted found]
      cases succ <;> dsimp only [settle] <;> split <;> rfl
    · cases Option.some.inj read; rfl

theorem offer_incomplete (incomplete : ¬ Complete e) (accepts : Bool) : offer e accepts = e := by
  unfold offer
  split
  · rfl
  · rename_i b held
    rw [if_neg]
    rintro ⟨whole,_⟩
    exact incomplete ⟨by simp [held],whole⟩

theorem offer_refused (e : State) : offer e false = e := by
  unfold offer
  split
  · rfl
  · simp

theorem offer_taken (complete : Complete e) (held : e.rpdu.buf = some b) :
    offer e true = {e with accepted:=e.accepted ++ [b],rpdu:=.null} := by
  unfold offer
  rw [held]
  simp [complete.2]

theorem readCb_cases (running : e.aborted = false) (called : readCb e first second accepts = some after) :
    ∃ e', reading e first second = some e' ∧
      ((offered e first second = none ∧ after = e' ∧ (e.dead = true ∧ e' = e ∨ e'.aborted = true ∨ ¬ Complete e')) ∨
        ∃ b, Complete e' ∧ e'.rpdu.buf = some b ∧ offered e first second = some b ∧ after = offer e' accepts) := by
  rw [readCb_split running] at called
  obtain ⟨e',read,same⟩ := Option.map_eq_some_iff.mp called
  refine ⟨e',read,?_⟩
  unfold offered
  rw [read,Option.bind_some]
  by_cases stops : e.dead = true ∨ e'.aborted = true
  · rw [if_pos stops] at same
    refine .inl ⟨if_neg fun goes => goes.1 stops,same.symm,?_⟩
    rcases stops with dead | stopped
    · have idle : reading e first second = some e := if_pos dead
      exact .inl ⟨dead,Option.some.inj (read.symm.trans idle)⟩
    · exact .inr (.inl stopped)
  · rw [if_neg stops] at same
    by_cases complete : Complete e'
    · obtain ⟨b,held⟩ := Option.isSome_iff_exists.mp complete.1
      exact .inr ⟨b,complete,held,by rw [if_pos ⟨stops,complete.2⟩,held],same.symm⟩
    · refine .inl ⟨?_,by rw [← same,offer_incomplete complete],.inr (.inr complete)⟩
      split
      · rename_i goes
        exact Option.not_isSome_iff_eq_none.mp fun held => complete ⟨held,goes.2⟩
      · rfl

-- A PDU that is complete and still there was refused when it was last offered.
structure Waiting (e : State) (offers : Offers) : Prop where
  sane : Sane e
  refused : Complete e → ∃ b before, offers = before ++ [(b,false)]

theorem Waiting.step {label : Label} (waiting : Waiting e offers) (moved : step e label = some e') :
    Waiting e' (offers ++ gotPdus e label) ∧ e'.accepted = e.accepted ++ acceptedOffers (gotPdus e label) := by
  unfold Receive.step at moved
  obtain ⟨running,moved⟩ := Option.ite_none_left_eq_some.mp moved
  rw [Bool.not_eq_true] at running
  cases label with
  | dies | fails =>
    cases Option.some.inj moved
    rw [gotPdus,List.append_nil]
    exact ⟨⟨waiting.sane,waiting.refused⟩,(List.append_nil _).symm⟩
  | readCb first second accepts =>
    obtain ⟨e',read,called⟩ := readCb_cases running moved
    obtain ⟨sane,stopped⟩ := reading_sane waiting.sane running read
    have kept : e'.accepted = e.accepted := reading_accepted read
    rcases called with ⟨nothing,rfl,why⟩ | ⟨b,complete,held,handed,rfl⟩
    · simp only [gotPdus,nothing,acceptedOffers,Option.toList_none,List.map_nil,List.filter_nil,List.append_nil]
      refine ⟨⟨sane,fun complete => ?_⟩,kept⟩
      rcases why with ⟨_,rfl⟩ | aborted | incomplete
      · exact waiting.refused complete
      · exact absurd complete (stopped aborted)
      · exact absurd complete incomplete
    · simp only [gotPdus,handed,Option.toList_some,List.map_cons,List.map_nil]
      cases accepts with
      | false =>
        rw [offer_refused]
        exact ⟨⟨sane,fun _ => ⟨b,offers,rfl⟩⟩,by simp [acceptedOffers,kept]⟩
      | true =>
        rw [offer_taken complete held]
        refine ⟨⟨.inl rfl,fun whole => ?_⟩,by simp [acceptedOffers,kept]⟩
        simp [Complete,Charbuf.null] at whole

theorem Waiting.nothing (waiting : Waiting e offers) (all : AllTaken offers) : ¬ Complete e := by
  intro complete
  obtain ⟨b,before,rfl⟩ := waiting.refused complete
  exact allTaken_last all

end Offers

-- A PDU as send writes it, starting with its own size.
structure Pdu where
  bytes : List UInt8
  headed : rpcHeaderSz ≤ bytes.length
  bounded : bytes.length ≤ maxPdu
  sized : bytes.take rpcSzSize = Words.be32 (UInt32.ofNat bytes.length)

def wire (pdus : List Pdu) : List UInt8 := pdus.flatMap Pdu.bytes

theorem ntohl_be32 (x : UInt32) : ntohl (Words.be32 x) = x.toInt32.toInt := by
  simp only [ntohl,Words.be32,Words.join32_bytes]

theorem Pdu.size (p : Pdu) : ntohl (p.bytes.take rpcSzSize) = p.bytes.length := by
  have bounded := p.bounded
  simp only [maxPdu] at bounded
  have small : (UInt32.ofNat p.bytes.length).toNat = p.bytes.length := by
    rw [UInt32.toNat_ofNat']; exact Nat.mod_eq_of_lt (by omega)
  rw [p.sized,ntohl_be32]
  show (UInt32.ofNat p.bytes.length).toBitVec.toInt = _
  rw [BitVec.toInt_eq_toNat_of_lt]
  · exact congrArg Int.ofNat small
  · show 2 * (UInt32.ofNat p.bytes.length).toNat < 2^32
    omega

theorem Pdu.allocated (p : Pdu) : mallocSize p.bytes.length < 2^63 := by
  have bounded := p.bounded
  simp only [maxPdu] at bounded
  simp only [mallocSize,rpcSzSize]
  omega

-- Where the reader stands in the list of PDUs that the peer has sent.
inductive Reading (pdus : List Pdu) (s : State) : Prop where
  | between (done todo : List Pdu) : pdus = done ++ todo → s.accepted = done.map Pdu.bytes →
      s.rpdu.buf = none → s.rpdu.sz = 0 → s.stream = wire todo → Reading pdus s
  | inside (done todo : List Pdu) (p : Pdu) (n : Nat) : pdus = done ++ p :: todo →
      s.accepted = done.map Pdu.bytes → s.rpdu.buf = some (p.bytes.take n) → s.rpdu.sz = p.bytes.length →
      s.rpdu.solong = n → rpcSzSize ≤ n → n ≤ p.bytes.length → s.stream = p.bytes.drop n ++ wire todo →
      Reading pdus s
  | broken (done todo : List Pdu) : pdus = done ++ todo → s.accepted = done.map Pdu.bytes →
      s.rpdu.buf = none → s.dead = true → s.stream ≠ [] → Reading pdus s

variable {pdus : List Pdu} {s s' : State} {first second : ReadResult} {accepts succ : Bool}

theorem readBody_reading {done todo : List Pdu} {p : Pdu} {n : Nat} (order : pdus = done ++ p :: todo)
    (accepted : s.accepted = done.map Pdu.bytes) (buf : s.rpdu.buf = some (p.bytes.take n))
    (sz : s.rpdu.sz = p.bytes.length) (solong : s.rpdu.solong = n) (low : rpcSzSize ≤ n)
    (high : n < p.bytes.length) (stream : s.stream = p.bytes.drop n ++ wire todo)
    (read : readBody s second = some (succ,s')) :
    Reading pdus (settle succ s') ∧ (succ = false → s'.rpdu.buf = none) ∧ s'.aborted = s.aborted := by
  have left : s.stream ≠ [] := by
    rw [stream]
    intro none
    have := congrArg List.length none
    simp only [List.length_append,List.length_drop,List.length_nil] at this
    omega
  cases second with
  | data k =>
    simp only [readBody] at read
    split at read
    · rename_i there
      obtain ⟨rfl,rfl⟩ := Prod.mk.inj (Option.some.inj read)
      obtain ⟨positive,inside,_⟩ := there
      rw [sz,solong] at inside
      have bound : n + k ≤ p.bytes.length := by omega
      have taken : s.stream.take k = (p.bytes.drop n).take k := by
        rw [stream,List.take_append_of_le_length (by rw [List.length_drop]; omega)]
      have rest : s.stream.drop k = p.bytes.drop (n+k) ++ wire todo := by
        rw [stream,List.drop_append_of_le_length (by rw [List.length_drop]; omega),List.drop_drop]
      refine ⟨.inside done todo p (n+k) order accepted ?_ sz ?_ (by omega) bound rest,by simp,rfl⟩
      · show (s.rpdu.buf.map (· ++ s.stream.take k)) = _
        rw [buf,taken,Option.map_some,List.take_add]
      · show s.rpdu.solong + (k : Int) = _
        rw [solong]
        simp
    · cases read
  | eof =>
    simp only [readBody] at read
    split at read
    · obtain ⟨rfl,rfl⟩ := Prod.mk.inj (Option.some.inj read)
      exact ⟨.inside done todo p n order accepted buf sz solong low (Nat.le_of_lt high) stream,by simp,rfl⟩
    · obtain ⟨rfl,rfl⟩ := Prod.mk.inj (Option.some.inj read)
      exact ⟨.broken done (p :: todo) order accepted rfl rfl left,fun _ => rfl,rfl⟩
  | error errno =>
    simp only [readBody] at read
    split at read
    · obtain ⟨rfl,rfl⟩ := Prod.mk.inj (Option.some.inj read)
      exact ⟨.inside done todo p n order accepted buf sz solong low (Nat.le_of_lt high) stream,by simp,rfl⟩
    · obtain ⟨rfl,rfl⟩ := Prod.mk.inj (Option.some.inj read)
      exact ⟨.broken done (p :: todo) order accepted rfl rfl left,fun _ => rfl,rfl⟩

theorem wire_front {todo : List Pdu} (there : 0 < n ∧ n ≤ rpcSzSize ∧ n ≤ (wire todo).length) :
    ∃ p rest, todo = p :: rest ∧ (wire todo).take n = p.bytes.take n ∧
      (wire todo).drop n = p.bytes.drop n ++ wire rest := by
  cases todo with
  | nil =>
    simp only [wire,List.flatMap_nil,List.length_nil] at there
    omega
  | cons p rest =>
    have headed := p.headed
    have inside : n ≤ p.bytes.length := by
      simp only [rpcHeaderSz] at headed
      simp only [rpcSzSize] at there
      omega
    have bytes : wire (p :: rest) = p.bytes ++ wire rest := rfl
    exact ⟨p,rest,rfl,by rw [bytes,List.take_append_of_le_length inside],
      by rw [bytes,List.drop_append_of_le_length inside]⟩

theorem newPdu_body (p : Pdu) (buf : s.rpdu.buf = none) :
    newPdu s (p.bytes.take rpcSzSize) second = readBody {s with
      rpdu:=⟨some (p.bytes.take rpcSzSize),mallocSize p.bytes.length,p.bytes.length,rpcSzSize⟩} second := by
  have bounded := p.bounded
  have allocated := p.allocated
  unfold newPdu
  rw [p.size,if_neg (by omega),if_neg (by rw [buf]; simp; omega)]

theorem readpdu_reading (reading : Reading pdus s) (alive : s.dead = false) (running : s.aborted = false)
    (more : s.rpdu.buf = none ∨ s.rpdu.solong < s.rpdu.sz) (read : readpdu s first second = some (succ,s')) :
    Reading pdus (settle succ s') ∧ (succ = false → s'.rpdu.buf = none) ∧ (s'.aborted = true → Reading pdus s') := by
  cases reading with
  | broken done todo _ _ _ dead => rw [alive] at dead; cases dead
  | inside done todo p n order accepted buf sz solong low high stream =>
    have headed := p.headed
    simp only [rpcHeaderSz] at headed
    have unfinished : n < p.bytes.length := by
      rcases more with missing | shorter
      · rw [buf] at missing; cases missing
      · rw [solong,sz] at shorter; omega
    have started : s.rpdu.sz ≠ 0 := by omega
    unfold readpdu at read
    rw [if_neg started] at read
    have result := readBody_reading order accepted buf sz solong low unfinished stream read
    exact ⟨result.1,result.2.1,fun stopped => by rw [result.2.2,running] at stopped; cases stopped⟩
  | between done todo order accepted buf sz stream =>
    unfold readpdu at read
    rw [if_pos sz] at read
    cases first with
    | eof =>
      obtain ⟨rfl,rfl⟩ := Prod.mk.inj (Option.some.inj read)
      exact ⟨.between done todo order accepted buf sz stream,fun _ => buf,
        fun stopped => by rw [running] at stopped; cases stopped⟩
    | error errno =>
      obtain ⟨rfl,rfl⟩ := Prod.mk.inj (Option.some.inj read)
      exact ⟨.between done todo order accepted buf sz stream,fun _ => buf,
        fun _ => .between done todo order accepted buf sz stream⟩
    | data n =>
      simp only at read
      split at read
      · rename_i there
        rw [stream] at there
        obtain ⟨p,rest,rfl,front,back⟩ := wire_front there
        have headed := p.headed
        simp only [rpcHeaderSz] at headed
        rw [stream,front,back] at read
        split at read
        · -- A short read of the size: the rest of the PDU stays in the stream.
          rename_i short
          obtain ⟨rfl,rfl⟩ := Prod.mk.inj (Option.some.inj read)
          refine ⟨.broken done (p :: rest) order accepted buf rfl ?_,fun _ => buf,
            fun stopped => by rw [running] at stopped; cases stopped⟩
          show p.bytes.drop n ++ wire rest ≠ []
          intro none
          have length := congrArg List.length none
          have size := there.2.1
          simp only [List.length_append,List.length_drop,List.length_nil] at length
          simp only [rpcSzSize] at size
          omega
        · rename_i whole
          have four : n = rpcSzSize := Classical.byContradiction whole
          subst four
          rw [newPdu_body (s:={s with stream:=p.bytes.drop rpcSzSize ++ wire rest}) p buf] at read
          let begun : State := {s with
            stream:=p.bytes.drop rpcSzSize ++ wire rest
            rpdu:=⟨some (p.bytes.take rpcSzSize),mallocSize p.bytes.length,p.bytes.length,rpcSzSize⟩}
          have result := readBody_reading (s:=begun) order accepted rfl rfl rfl (Nat.le_refl _)
            (by simp only [rpcSzSize]; omega) rfl read
          exact ⟨result.1,result.2.1,fun stopped => by rw [result.2.2,running] at stopped; cases stopped⟩
      · cases read

theorem offer_reading (reading : Reading pdus s) : Reading pdus (offer s accepts) := by
  unfold offer
  split
  · exact reading
  · rename_i b held
    split
    · rename_i complete
      cases reading with
      | between done todo _ _ buf => rw [buf] at held; cases held
      | broken done todo _ _ buf => rw [buf] at held; cases held
      | inside done todo p n order accepted buf sz solong low high stream =>
        have whole : n = p.bytes.length := by
          have := complete.1
          rw [sz,solong] at this
          omega
        rw [buf,whole,List.take_length] at held
        cases Option.some.inj held
        rw [whole,List.drop_length,List.nil_append] at stream
        exact .between (done ++ [p]) todo (by simp [order]) (by simp [accepted]) rfl rfl stream
    · exact reading

theorem Reading.elsewhere (reading : Reading pdus s) (accepted : s'.accepted = s.accepted)
    (rpdu : s'.rpdu = s.rpdu) (stream : s'.stream = s.stream) (dead : s.dead = true → s'.dead = true) :
    Reading pdus s' := by
  cases reading with
  | between done todo order got buf sz left =>
    exact .between done todo order (accepted.trans got) (rpdu ▸ buf) (rpdu ▸ sz) (stream.trans left)
  | inside done todo p n order got buf sz solong low high left =>
    exact .inside done todo p n order (accepted.trans got) (rpdu ▸ buf) (rpdu ▸ sz) (rpdu ▸ solong) low high
      (stream.trans left)
  | broken done todo order got buf gone left =>
    exact .broken done todo order (accepted.trans got) (rpdu ▸ buf) (dead gone) (stream ▸ left)

theorem step_reading (reading : Reading pdus s) (taken : step s label = some s') : Reading pdus s' := by
  unfold step at taken
  split at taken
  · cases taken
  · rename_i running
    cases label with
    | dies => cases Option.some.inj taken; exact reading.elsewhere rfl rfl rfl (fun _ => rfl)
    | fails errno => cases Option.some.inj taken; exact reading.elsewhere rfl rfl rfl id
    | readCb first second accepts =>
      simp only [readCb] at taken
      split at taken
      · cases Option.some.inj taken; exact reading
      · rename_i alive
        split at taken
        · rename_i more
          obtain ⟨⟨succ,middle⟩,read,rfl⟩ := Option.map_eq_some_iff.mp taken
          obtain ⟨settled,_,stopped⟩ := readpdu_reading reading (by simpa using alive) (by simpa using running) more read
          dsimp only
          split
          · rename_i aborted; exact stopped aborted
          · exact offer_reading settled
        · cases Option.some.inj taken
          exact offer_reading reading

theorem runs_reading (path : Machine.Runs step ok (initial (wire pdus) errno) labels s) : Reading pdus s :=
  path.invariant (.between [] pdus rfl rfl rfl rfl rfl) (fun _ _ _ reading _ taken => step_reading reading taken)

theorem Reading.delivered (reading : Reading pdus s) : s.accepted <+: pdus.map Pdu.bytes := by
  cases reading with
  | between done todo order accepted | broken done todo order accepted =>
    rw [accepted,order,List.map_append]
    exact List.prefix_append _ _
  | inside done todo p n order accepted =>
    rw [accepted,order,List.map_append]
    exact List.prefix_append _ _

theorem Reading.complete (reading : Reading pdus s) (empty : s.stream = []) (nothing : ¬ Complete s) :
    s.accepted = pdus.map Pdu.bytes := by
  cases reading with
  | between done todo order accepted _ _ stream =>
    cases todo with
    | nil => rw [accepted,order,List.append_nil]
    | cons p todo =>
      have headed := p.headed
      have length := congrArg List.length (stream.symm.trans empty)
      simp only [wire,List.flatMap_cons,List.length_append,List.length_nil,rpcHeaderSz] at headed length
      omega
  | inside done todo p n order accepted held sz solong low high stream =>
    have length := congrArg List.length (stream.symm.trans empty)
    simp only [List.length_append,List.length_drop,List.length_nil] at length
    exact absurd ⟨by rw [held]; rfl,by omega⟩ nothing
  | broken done todo order accepted _ _ left => exact absurd empty left

theorem step_dead (dead : s.dead = true) (taken : step s label = some s') :
    s'.dead = true ∧ s'.accepted = s.accepted := by
  unfold step at taken
  split at taken
  · cases taken
  · cases label with
    | dies => cases Option.some.inj taken; exact ⟨rfl,rfl⟩
    | fails errno => cases Option.some.inj taken; exact ⟨dead,rfl⟩
    | readCb first second accepts =>
      simp only [readCb,dead,if_true] at taken
      cases Option.some.inj taken
      exact ⟨dead,rfl⟩

theorem runs_dead (dead : s.dead = true) (path : Machine.Runs step ok s labels s') :
    s'.dead = true ∧ s'.accepted = s.accepted := by
  induction path with
  | nil => exact ⟨dead,rfl⟩
  | snoc _ _ taken ih =>
    obtain ⟨still,same⟩ := step_dead ih.1 taken
    exact ⟨still,same.trans ih.2⟩

theorem split_dead (reading : Reading pdus s) (alive : s.dead = false) (size : s.rpdu.sz = 0) (short : n < rpcSzSize)
    (taken : step s (.readCb (.data n) second accepts) = some s') : s'.dead = true ∧ s'.accepted = s.accepted := by
  have buf : s.rpdu.buf = none := by
    cases reading with
    | between done todo _ _ buf => exact buf
    | broken done todo _ _ buf => exact buf
    | inside done todo p n _ _ _ sz =>
      have headed := p.headed
      simp only [rpcHeaderSz] at headed
      omega
  unfold step at taken
  split at taken
  · cases taken
  · rename_i running
    simp only [readCb,alive,buf,true_or,if_true] at taken
    obtain ⟨⟨succ,middle⟩,read,rfl⟩ := Option.map_eq_some_iff.mp taken
    unfold readpdu at read
    rw [if_pos size] at read
    simp only at read
    split at read
    · rw [if_pos (Nat.ne_of_lt short)] at read
      obtain ⟨rfl,rfl⟩ := Prod.mk.inj (Option.some.inj read)
      simp [running,offer,settle,buf]
    · cases read

-- No read splits a size, no error and no end of the stream, and nobody else
-- marks the connection dead. EAGAIN is no error.
def calmResult : ReadResult → Prop
  | .data _ => True
  | .eof => False
  | .error errno => errno = .EAGAIN

def Calm (s : State) : Label → Prop
  | .readCb first second _ =>
      (s.rpdu.sz = 0 → calmResult first ∧ ∀ n, first = .data n → n = rpcSzSize) ∧ calmResult second
  | .dies => False
  | .fails _ => True

theorem readBody_calm (calm : calmResult second) (read : readBody s second = some (succ,s')) :
    succ = true ∧ s'.dead = s.dead := by
  cases second with
  | eof => cases calm
  | data n =>
    simp only [readBody] at read
    split at read
    · obtain ⟨rfl,rfl⟩ := Prod.mk.inj (Option.some.inj read)
      exact ⟨rfl,rfl⟩
    · cases read
  | error errno =>
    simp only [readBody] at read
    rw [if_pos (show errno = .EAGAIN from calm)] at read
    obtain ⟨rfl,rfl⟩ := Prod.mk.inj (Option.some.inj read)
    exact ⟨rfl,rfl⟩

theorem readpdu_calm (reading : Reading pdus s) (alive : s.dead = false)
    (calm : Calm s (.readCb first second accepts)) (read : readpdu s first second = some (succ,s')) :
    (succ = true ∨ s'.aborted = true) ∧ s'.dead = s.dead := by
  unfold readpdu at read
  split at read
  · rename_i size
    obtain ⟨whole,four⟩ := calm.1 size
    cases first with
    | eof => cases whole
    | error errno =>
      obtain ⟨rfl,rfl⟩ := Prod.mk.inj (Option.some.inj read)
      exact ⟨.inr (decide_eq_true whole),rfl⟩
    | data n =>
      cases four n rfl
      simp only at read
      split at read
      · rename_i there
        rw [if_neg (by simp)] at read
        cases reading with
        | inside done todo p n _ _ _ sz =>
          have headed := p.headed
          simp only [rpcHeaderSz] at headed
          omega
        | broken done todo _ _ _ dead => rw [alive] at dead; cases dead
        | between done todo order accepted buf sz stream =>
          rw [stream] at there
          obtain ⟨p,rest,rfl,front,back⟩ := wire_front there
          rw [stream,front,back,newPdu_body (s:={s with stream:=p.bytes.drop rpcSzSize ++ wire rest}) p buf] at read
          have result := readBody_calm calm.2 read
          exact ⟨.inl result.1,result.2⟩
      · cases read
  · have result := readBody_calm calm.2 read
    exact ⟨.inl result.1,result.2⟩

theorem offer_dead (s : State) (accepts : Bool) : (offer s accepts).dead = s.dead := by
  unfold offer
  split
  · rfl
  · split <;> rfl

theorem step_calm (reading : Reading pdus s) (alive : s.dead = false) (calm : Calm s label)
    (taken : step s label = some s') : s'.dead = false := by
  unfold step at taken
  split at taken
  · cases taken
  · cases label with
    | dies => cases calm
    | fails errno => cases Option.some.inj taken; exact alive
    | readCb first second accepts =>
      simp only [readCb,alive] at taken
      rw [if_neg (by simp)] at taken
      split at taken
      · obtain ⟨⟨succ,middle⟩,read,rfl⟩ := Option.map_eq_some_iff.mp taken
        obtain ⟨good,dead⟩ := readpdu_calm reading alive calm read
        dsimp only
        split
        · exact dead.trans alive
        · rename_i running
          rw [offer_dead,settle,if_pos (good.resolve_right running)]
          exact dead.trans alive
      · cases Option.some.inj taken
        rw [offer_dead]
        exact alive

theorem runs_calm (path : Machine.Runs step Calm (initial (wire pdus) errno) labels s) : s.dead = false := by
  induction path with
  | nil => rfl
  | snoc prior calm taken ih => exact step_calm (runs_reading prior) ih calm taken

theorem runs_waiting (path : Machine.Runs step ok (initial stream errno) labels s) :
    Waiting s (Machine.emitted step gotPdus (initial stream errno) labels) ∧
      s.accepted = acceptedOffers (Machine.emitted step gotPdus (initial stream errno) labels) := by
  induction path with
  | nil => exact ⟨⟨.inl rfl,by simp [Complete,initial,Charbuf.null]⟩,rfl⟩
  | snoc prior _ taken ih =>
    obtain ⟨waiting,accepted⟩ := ih.1.step taken
    rw [prior.emitted_snoc]
    exact ⟨waiting,by rw [accepted,ih.2,acceptedOffers_append]⟩

def Accepting (labels : List Label) : Prop :=
  ∀ first second accepts, Label.readCb first second accepts ∈ labels → accepts = true

theorem Accepting.allTaken (accepting : Accepting labels) (start : State) :
    AllTaken (Machine.emitted step gotPdus start labels) := by
  apply allTaken_accepted
  intro offer there
  obtain ⟨label,member,state,there⟩ := Machine.emitted_source gotPdus there
  cases label with
  | dies | fails => cases there
  | readCb first second accepts =>
    obtain ⟨b,_,rfl⟩ := List.mem_map.mp there
    exact accepting first second accepts member

theorem accepted_pdus_are_sent (path : Machine.Runs step Machine.free (initial (wire pdus) errno) labels s) :
    s.accepted <+: pdus.map Pdu.bytes ∧
    s.accepted = acceptedOffers (Machine.emitted step gotPdus (initial (wire pdus) errno) labels) ∧
    (s.stream = [] → AllTaken (Machine.emitted step gotPdus (initial (wire pdus) errno) labels) →
      s.accepted = pdus.map Pdu.bytes) ∧
    (s.stream = [] → Accepting labels → s.accepted = pdus.map Pdu.bytes) ∧
    (Machine.Runs step Calm (initial (wire pdus) errno) labels s → s.dead = false) ∧
    ∀ n second accepts s', s.dead = false → s.rpdu.sz = 0 → n < rpcSzSize →
      step s (.readCb (.data n) second accepts) = some s' →
      s'.dead = true ∧ ∀ more t, Machine.Runs step Machine.free s' more t → t.accepted = s.accepted := by
  have reading := runs_reading path
  obtain ⟨waiting,accepted⟩ := runs_waiting path
  have delivered : s.stream = [] → AllTaken (Machine.emitted step gotPdus (initial (wire pdus) errno) labels) →
      s.accepted = pdus.map Pdu.bytes := by
    intro empty all
    exact reading.complete empty (waiting.nothing all)
  refine ⟨reading.delivered,accepted,delivered,?_,runs_calm,?_⟩
  · intro empty accepting
    exact delivered empty (accepting.allTaken _)
  · intro n second accepts s' alive size short taken
    obtain ⟨dead,same⟩ := split_dead reading alive size short taken
    exact ⟨dead,fun more t later => (runs_dead dead later).2.trans same⟩

-- Two PDUs; the first is cut inside its body, refused once, then accepted.
def one : Pdu := ⟨[0,0,0,24] ++ List.replicate 20 1,by decide,by decide,by decide⟩
def two : Pdu := ⟨[0,0,0,25] ++ List.replicate 21 2,by decide,by decide,by decide⟩

theorem cut_pdus_accepted :
    ∃ s, Machine.Runs step Machine.free (initial (wire [one,two]) .other)
        [.readCb (.data 4) (.data 7) true,.readCb .eof (.error .EAGAIN) true,.readCb .eof (.data 13) false,
         .readCb .eof .eof true,.readCb (.data 4) (.data 21) true] s ∧
      s.accepted = [one,two].map Pdu.bytes := by
  have seen : (Machine.exec step (initial (wire [one,two]) .other)
      [.readCb (.data 4) (.data 7) true,.readCb .eof (.error .EAGAIN) true,.readCb .eof (.data 13) false,
       .readCb .eof .eof true,.readCb (.data 4) (.data 21) true]).map State.stream = some [] := by decide +kernel
  have taken : AllTaken (Machine.emitted step gotPdus (initial (wire [one,two]) .other)
      [.readCb (.data 4) (.data 7) true,.readCb .eof (.error .EAGAIN) true,.readCb .eof (.data 13) false,
       .readCb .eof .eof true,.readCb (.data 4) (.data 21) true]) := by decide +kernel
  obtain ⟨s,path,stream⟩ := Machine.exec_free_observed seen
  exact ⟨s,path,(accepted_pdus_are_sent path).2.2.1 stream taken⟩

end YfsLab.Receive
