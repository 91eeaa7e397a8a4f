import Mathlib.Data.List.TakeWhile
import YfsLab.Receive
import YfsLab.Send

namespace YfsLab.Channel
open Receive (Pdu Reading wire)

-- One direction of a TCP connection: the end that sends, the end that receives,
-- and how many of the bytes written have come to the latter.
structure State where
  sender : Send.State
  receiver : Receive.State
  arrived : Nat

def initial (errno : Receive.Errno) : State := ⟨Send.initial,Receive.initial [] errno,0⟩

inductive Label where
  | send (label : Send.Label)
  | arrive (n : Nat)
  | receive (label : Receive.Label)

-- The bytes come in any portions, in order and unchanged.
def step (s : State) : Label → Option State
  | .send label => (Send.step s.sender label).map fun sender => {s with sender}
  | .arrive n =>
    let bytes := (s.sender.wire.drop s.arrived).take n
    some {s with receiver:={s.receiver with stream:=s.receiver.stream ++ bytes},arrived:=s.arrived+bytes.length}
  | .receive label => (Receive.step s.receiver label).map fun receiver => {s with receiver}

-- What is on the wire stays there.
section Sending
variable {s s' : Send.State} {result : Send.WriteResult}

end Sending

-- A reader does with a longer stream what it did without the bytes behind.
section Longer
open Receive
variable {r r' : Receive.State} {first second : ReadResult} {bytes : List UInt8}

def more (r : Receive.State) (bytes : List UInt8) : Receive.State := {r with stream:=r.stream ++ bytes}

-- No byte is accepted twice, and none that was not in the stream.
def size (r : Receive.State) : Nat := r.accepted.flatten.length + (r.rpdu.buf.getD []).length + r.stream.length

-- The reader is at these PDUs, behind which nothing or a PDU too big follows,
-- or it has given up the connection.
def Held (pdus : List Pdu) (tail : List UInt8) (r : Receive.State) : Prop :=
  (∃ front, r.stream = front ++ tail ∧ Reading pdus {r with stream:=front}) ∨
    (r.dead = true ∧ r.accepted <+: pdus.map Pdu.bytes)

end Longer

variable {s s' : State}

-- The PDUs that have gone out, and those among them that the other end takes:
-- send has no limit, the receiver has.
section Frames
open Send (frameAt)
variable {senders : List Send.Sender} {full : List Nat} {frames : List (List UInt8)}

def fits (senders : List Send.Sender) (k : Nat) : Bool := (frameAt senders k).length ≤ maxPdu

theorem frameAt_form (known : k < senders.length) : ∃ b : Send.Buffer, frameAt senders k = frame b.bytes :=
  ⟨senders[k].b,Send.frameAt_eq (List.getElem?_eq_getElem known)⟩

theorem none_in_part (last : List UInt8) (later : List (List UInt8)) (suffix : later <:+ frames ++ [last])
    (short : later.flatten.length < last.length) : later = [] := by
  rcases List.suffix_concat_iff.mp suffix with none_ | ⟨front,same,_⟩
  · exact none_
  · rw [same,List.flatten_append,List.length_append,List.flatten_singleton] at short
    omega

-- The PDUs that are on the wire to their end, and with the bytes that the one
-- behind them still lacks.
structure Gone (senders : List Send.Sender) (bytes : List UInt8) (full ext : List Nat) (rest : List UInt8) : Prop where
  nodup : full.Nodup
  known : ∀ k ∈ ext, k < senders.length
  completed : bytes ++ rest = ext.flatMap (frameAt senders)
  last : (ext = full ∧ rest = []) ∨ ∃ k, ext = full ++ [k] ∧ rest ≠ [] ∧ rest.length < (frameAt senders k).length

theorem Gone.sent (gone : Gone senders bytes full ext rest) : ∀ k ∈ full, k < senders.length := by
  intro k member
  rcases gone.last with ⟨rfl,_⟩ | ⟨last,rfl,_⟩
  · exact gone.known k member
  · exact gone.known k (List.mem_append_left _ member)

variable {r : Receive.State} {pdus : List Pdu} {ext : List Nat} {rest bytes later : List UInt8}

theorem Gone.accepted (gone : Gone senders bytes full ext rest)
    (whole : pdus.map Pdu.bytes = (ext.takeWhile (fits senders)).map (frameAt senders))
    (held : Held pdus ((ext.dropWhile (fits senders)).flatMap (frameAt senders)) (more r (later ++ rest)))
    (sizes : size (more r (later ++ rest)) ≤
      (wire pdus ++ (ext.dropWhile (fits senders)).flatMap (frameAt senders)).length) :
    r.accepted <+: (full.takeWhile (fits senders)).map (frameAt senders) := by
  have taken : r.accepted <+: (ext.takeWhile (fits senders)).map (frameAt senders) := by
    rw [← whole]
    rcases held with ⟨front,_,reading⟩ | ⟨_,accepted⟩
    · exact reading.delivered
    · exact accepted
  rcases gone.last with ⟨rfl,_⟩ | ⟨k,rfl,some_,_⟩
  · exact taken
  · rw [List.takeWhile_append] at taken
    split at taken
    · rename_i all
      have same : full.takeWhile (fits senders) = full := (List.takeWhile_prefix _).eq_of_length all
      rw [same]
      cases small : fits senders k with
      | false => simpa [small] using taken
      | true =>
        have alone : [k].takeWhile (fits senders) = [k] := by simp [small]
        rw [alone,List.map_append] at taken
        rcases List.prefix_concat_iff.mp taken with complete | part
        · -- All the bytes would have been consumed, but some have not come.
          have everything : (full ++ [k]).takeWhile (fits senders) = full ++ [k] := by
            rw [List.takeWhile_append,if_pos all,alone]
          have nothing : (full ++ [k]).dropWhile (fits senders) = [] := by
            have both := List.takeWhile_append_dropWhile (p:=fits senders) (l:=full ++ [k])
            rw [everything] at both
            exact List.append_right_eq_self.mp both
          rw [everything,List.map_append] at whole
          have consumed : r.accepted = pdus.map Pdu.bytes := complete.trans whole.symm
          rw [nothing,List.flatMap_nil,List.append_nil,wire,List.flatMap_def,← consumed] at sizes
          have missing := List.length_pos_iff.mpr some_
          simp only [size,more,List.length_append] at sizes
          omega
        · exact part
    · exact taken

theorem Gone.reached (front later : List (List UInt8)) (gone : Gone senders bytes full ext rest)
    (all : ext.map (frameAt senders) = front ++ later) (flat : later.flatten = rest) : front = full.map (frameAt senders) := by
  have suffix : later <:+ ext.map (frameAt senders) := by
    rw [all]
    exact List.suffix_append _ _
  have none_ : later = [] ∧ ext = full := by
    rcases gone.last with ⟨rfl,rfl⟩ | ⟨k,rfl,some_,short⟩
    · refine ⟨?_,rfl⟩
      rcases List.eq_nil_or_concat ext with rfl | ⟨before,last,rfl⟩
      · exact List.suffix_nil.mp suffix
      · rw [List.concat_eq_append,List.map_append] at suffix
        refine none_in_part _ _ suffix ?_
        obtain ⟨b,form⟩ := frameAt_form (gone.known last (by simp))
        have headed := b.headed
        rw [← Send.frame_size b,← form,rpcHeaderSz] at headed
        rw [flat,List.length_nil]
        omega
    · rw [List.map_append] at suffix
      have gone_ := none_in_part _ _ suffix (by rw [flat]; exact short)
      rw [gone_,List.flatten_nil] at flat
      exact absurd flat.symm some_
  rw [none_.1,List.append_nil,none_.2] at all
  exact all.symm

theorem Gone.inside (front later : List (List UInt8)) (p : List UInt8) (gone : Gone senders bytes full ext rest)
    (all : ext.map (frameAt senders) = front ++ p :: later) (flat : p.drop n ++ later.flatten = rest)
    (partly : n < p.length) : front = full.map (frameAt senders) := by
  have missing : rest.length = p.length - n + later.flatten.length := by
    rw [← flat,List.length_append,List.length_drop]
  rcases gone.last with ⟨_,rfl⟩ | ⟨k,rfl,_,short⟩
  · rw [List.length_nil] at missing
    omega
  · rw [List.map_append] at all
    have suffix : later <:+ full.map (frameAt senders) ++ [frameAt senders k] := by
      refine ⟨front ++ [p],?_⟩
      rw [List.append_assoc,List.singleton_append]
      exact all.symm
    have none_ := none_in_part _ _ suffix (by omega)
    rw [none_] at all
    exact (List.append_inj' all rfl).1.symm

theorem Gone.complete (gone : Gone senders bytes full ext rest)
    (whole : pdus.map Pdu.bytes = (ext.takeWhile (fits senders)).map (frameAt senders))
    (held : Held pdus ((ext.dropWhile (fits senders)).flatMap (frameAt senders)) (more r rest))
    (alive : r.dead = false) (empty : r.stream = []) (nothing : ¬ Receive.Complete r) :
    r.accepted = full.map (frameAt senders) := by
  rcases held with ⟨front,split_,reading⟩ | ⟨dead,_⟩
  · have left : rest = front ++ ((ext.dropWhile (fits senders)).map (frameAt senders)).flatten := by
      have same : r.stream ++ rest = front ++ _ := split_
      rw [empty,List.nil_append,List.flatMap_def] at same
      exact same
    have ends : ext.map (frameAt senders) = pdus.map Pdu.bytes ++ (ext.dropWhile (fits senders)).map (frameAt senders) := by
      rw [whole,← List.map_append,List.takeWhile_append_dropWhile]
    cases reading with
    | broken _ _ _ _ _ dead => cases alive.symm.trans dead
    | between done todo order accepted _ _ stream =>
      have accepted : r.accepted = done.map Pdu.bytes := accepted
      have todo_ : front = wire todo := stream
      rw [accepted]
      refine Gone.reached _ (todo.map Pdu.bytes ++ (ext.dropWhile (fits senders)).map (frameAt senders)) gone ?_ ?_
      · rw [ends,order,List.map_append,List.append_assoc]
      · rw [left,todo_,List.flatten_append,wire,List.flatMap_def]
    | inside done todo p n order accepted buf sz solong low high stream =>
      have accepted : r.accepted = done.map Pdu.bytes := accepted
      have todo_ : front = p.bytes.drop n ++ wire todo := stream
      have partly : n < p.bytes.length := by
        refine Nat.lt_of_le_of_ne high fun same => nothing ⟨?_,?_⟩
        · have held : r.rpdu.buf = some (p.bytes.take n) := buf
          rw [held]
          rfl
        · have sz : r.rpdu.sz = p.bytes.length := sz
          have solong : r.rpdu.solong = n := solong
          rw [sz,solong,same]
      rw [accepted]
      refine Gone.inside _ (todo.map Pdu.bytes ++ (ext.dropWhile (fits senders)).map (frameAt senders)) p.bytes gone
        ?_ ?_ partly
      · rw [ends,order,List.map_append,List.map_cons,List.append_assoc,List.cons_append]
      · rw [left,todo_,List.flatten_append,wire,List.flatMap_def,List.append_assoc]
  · cases alive.symm.trans dead

end Frames

def gotPdus (s : State) : Label → Receive.Offers
  | .receive label => Receive.gotPdus s.receiver label
  | .send _ | .arrive _ => []

theorem runs_waiting (path : Machine.Runs step Machine.free (initial errno) labels s) :
    Receive.Waiting s.receiver (Machine.emitted step gotPdus (initial errno) labels) ∧
      s.receiver.accepted = Receive.acceptedOffers (Machine.emitted step gotPdus (initial errno) labels) := by
  induction path with
  | nil => exact Receive.runs_waiting (.nil : Machine.Runs Receive.step Machine.free (Receive.initial [] errno) [] _)
  | @snoc _ before label _ prior _ taken ih =>
    obtain ⟨waiting,accepted⟩ := ih
    rw [prior.emitted_snoc]
    cases label with
    | send label =>
      obtain ⟨sender,_,rfl⟩ := Option.map_eq_some_iff.mp taken
      rw [gotPdus,List.append_nil]
      exact ⟨waiting,accepted⟩
    | arrive n =>
      cases Option.some.inj taken
      rw [gotPdus,List.append_nil]
      exact ⟨⟨waiting.sane,waiting.refused⟩,accepted⟩
    | receive label =>
      obtain ⟨receiver,moved,rfl⟩ := Option.map_eq_some_iff.mp taken
      obtain ⟨now,more⟩ := waiting.step moved
      refine ⟨now,more.trans ?_⟩
      rw [accepted,Receive.acceptedOffers_append,gotPdus]

end YfsLab.Channel
