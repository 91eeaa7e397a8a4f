import YfsLab.Lib.Runs
import YfsLab.Arguments
import Mathlib.Logic.Function.Iterate

namespace YfsLab

-- rawbytes with the string that is passed in.
def Unmarshall.rawbytesInto (u : Unmarshall) (ss : List UInt8) (n : UInt32) : List UInt8 × Unmarshall :=
  if (u.ind + n.toNat) % 2^32 > u.buf.length then (ss,{u with ok:=false}) else u.rawbytes n

namespace Decodes

-- What operator>> does to the reader, one call of rawbyte or rawbytes after the
-- other.
inductive Prim where
  | byte
  | bytes (n : UInt32)
  deriving DecidableEq, Repr

def step (u : Unmarshall) : Prim → Option Unmarshall
  | .byte => some u.rawbyte.2
  | .bytes n => some (u.rawbytes n).2

def word : List Prim := [.byte,.byte,.byte,.byte]

def tyPrims (u : Unmarshall) : Ty → List Prim
  | .uchar | .char => [.byte]
  | .ushort | .short => [.byte,.byte]
  | .uint | .int => word
  | .ulonglong => word ++ word
  | .string => word ++ if u.unpack.2.ok then [.bytes u.unpack.1] else []

def repeated (next : Unmarshall → Unmarshall) (prims : Unmarshall → List Prim) : Nat → Unmarshall → List Prim
  | 0,_ => []
  | n+1,u => prims u ++ repeated next prims n (next u)

def prims : Shape → Unmarshall → List Prim
  | .base ty => fun u => tyPrims u ty
  | .attr => fun _ => word ++ word ++ word ++ word
  | .vector of => fun u =>
    word ++ repeated (fun u => (of.get u).2) (prims of) u.unpack.1.toNat u.unpack.2
  | .map key value => fun u =>
    word ++ repeated (fun u => (value.get (key.get u).2).2)
      (fun u => prims key u ++ prims value (key.get u).2) u.unpack.1.toNat u.unpack.2

def allPrims : List Shape → Unmarshall → List Prim
  | [],_ => []
  | s :: rest,u => prims s u ++ allPrims rest (s.get u).2

theorem byte_runs (u : Unmarshall) : Machine.Runs step Machine.free u [.byte] u.rawbyte.2 := .single trivial rfl

theorem word_runs (u : Unmarshall) : Machine.Runs step Machine.free u word u.unpack.2 :=
  (((byte_runs u).append (byte_runs _)).append (byte_runs _)).append (byte_runs _)

theorem ty_runs (u : Unmarshall) (ty : Ty) : Machine.Runs step Machine.free u (tyPrims u ty) (u.get ty).2 := by
  cases ty with
  | uchar => exact byte_runs u
  | char => exact byte_runs u
  | ushort => exact (byte_runs u).append (byte_runs _)
  | short => exact (byte_runs u).append (byte_runs _)
  | uint => exact word_runs u
  | int => exact word_runs u
  | ulonglong =>
    have both := (word_runs u).append (word_runs u.unpack.2)
    simp only [tyPrims,Unmarshall.get]
    exact both
  | string =>
    simp only [tyPrims,Unmarshall.get]
    split
    · exact (word_runs u).append (.single trivial rfl)
    · exact (word_runs u).append .nil

theorem repeated_runs {next : Unmarshall → Unmarshall} {prims : Unmarshall → List Prim}
    (each : ∀ u, Machine.Runs step Machine.free u (prims u) (next u)) (n : Nat) (u : Unmarshall) :
    Machine.Runs step Machine.free u (repeated next prims n u) (next^[n] u) := by
  induction n generalizing u with
  | zero => exact .nil
  | succ n ih => exact (each u).append (ih (next u))

section Templates
variable {T K V : Type} {cmp : K → K → Ordering}

theorem pushes_state (get : Unmarshall → T × Unmarshall) (n : Nat) (u : Unmarshall) (v : List T) :
    (u.pushes get n v).2 = (fun u => (get u).2)^[n] u := by
  induction n generalizing u v with
  | zero => rfl
  | succ n ih => exact ih _ _

theorem assigns_state [Std.TransCmp cmp] (getKey : Unmarshall → K × Unmarshall) (getValue : Unmarshall → V × Unmarshall)
    (n : Nat) (u : Unmarshall) (d : OrderedMap cmp V) :
    (Unmarshall.assigns getKey getValue n u d).2 = (fun u => (getValue (getKey u).2).2)^[n] u := by
  induction n generalizing u d with
  | zero => rfl
  | succ n ih => exact ih _ _

theorem vector_runs {get : Unmarshall → T × Unmarshall} {prims : Unmarshall → List Prim}
    (each : ∀ u, Machine.Runs step Machine.free u (prims u) (get u).2) (u : Unmarshall) :
    Machine.Runs step Machine.free u (word ++ repeated (fun u => (get u).2) prims u.unpack.1.toNat u.unpack.2)
      (u.vector get []).2 := by
  simp only [Unmarshall.vector]
  rw [pushes_state]
  exact (word_runs u).append (repeated_runs each _ _)

theorem map_runs [Std.TransCmp cmp] {getKey : Unmarshall → K × Unmarshall} {getValue : Unmarshall → V × Unmarshall}
    {keyPrims valuePrims : Unmarshall → List Prim}
    (key : ∀ u, Machine.Runs step Machine.free u (keyPrims u) (getKey u).2)
    (value : ∀ u, Machine.Runs step Machine.free u (valuePrims u) (getValue u).2) (u : Unmarshall) :
    Machine.Runs step Machine.free u
      (word ++ repeated (fun u => (getValue (getKey u).2).2) (fun u => keyPrims u ++ valuePrims (getKey u).2)
        u.unpack.1.toNat u.unpack.2)
      (u.map getKey getValue : OrderedMap cmp V × Unmarshall).2 := by
  simp only [Unmarshall.map]
  rw [assigns_state]
  exact (word_runs u).append (repeated_runs (fun u => (key u).append (value _)) _ _)

end Templates

-- The calls of rawbyte and rawbytes make up the whole effect of a decode.
theorem shape_runs (s : Shape) (u : Unmarshall) : Machine.Runs step Machine.free u (prims s u) (s.get u).2 := by
  induction s generalizing u with
  | base ty => exact ty_runs u ty
  | attr =>
    have two := (word_runs u).append (word_runs u.unpack.2)
    have three := two.append (word_runs u.unpack.2.unpack.2)
    have four := three.append (word_runs u.unpack.2.unpack.2.unpack.2)
    simp only [prims,Shape.get]
    exact four
  | vector of ih => exact vector_runs ih u
  | map key value ihKey ihValue => exact @map_runs _ _ key.kind.cmp _ _ _ _ _ ihKey ihValue u

theorem getItems_runs (shapes : List Shape) (u : Unmarshall) :
    Machine.Runs step Machine.free u (allPrims shapes u) (Unmarshall.getItems shapes u).2 := by
  induction shapes generalizing u with
  | nil => exact .nil
  | cons s rest ih => exact (shape_runs s u).append (ih (s.get u).2)

def Copies (u : Unmarshall) (n : UInt32) : Prop := ¬ (u.ind + n.toNat) % 2^32 > u.buf.length

-- The index stays in the buffer and does not go back, what is copied lies
-- before the end, and a length that exceeds what is left fails without touching
-- the string.
structure Moves (u after : Unmarshall) : Prop where
  forward : u.ind ≤ after.ind
  inside : after.ind ≤ u.buf.length
  same : after.buf = u.buf

def Safe (u : Unmarshall) : Prim → Prop
  | .byte => Moves u u.rawbyte.2 ∧ (u.ind < u.rawbyte.2.ind → u.ind < u.buf.length)
  | .bytes n => Moves u (u.rawbytes n).2 ∧ (Copies u n → ∀ i < n.toNat, u.ind + i < u.buf.length) ∧
      (u.buf.length - u.ind < n.toNat → ∀ ss, u.rawbytesInto ss n = (ss,{u with ok:=false}))

def Fits (u : Unmarshall) : Prim → Prop
  | .byte => True
  | .bytes n => u.ind + n.toNat < 2^32

instance (u : Unmarshall) (prim : Prim) : Decidable (Fits u prim) :=
  match prim with
  | .byte => inferInstanceAs (Decidable True)
  | .bytes n => inferInstanceAs (Decidable (u.ind + n.toNat < 2^32))

structure Bounded (size : Nat) (u : Unmarshall) : Prop where
  length : u.buf.length = size
  inside : u.ind ≤ size

theorem byte_safe (bounded : Bounded size u) : Safe u .byte := by
  have length := bounded.length
  have inside := bounded.inside
  simp only [Safe,Unmarshall.rawbyte]
  cases there : u.buf[u.ind]? with
  | none => exact ⟨⟨Nat.le_refl _,by dsimp only; omega,rfl⟩,fun moved => absurd moved (Nat.lt_irrefl _)⟩
  | some c =>
    have bound := (List.getElem?_eq_some_iff.mp there).1
    exact ⟨⟨Nat.le_succ _,bound,rfl⟩,fun _ => bound⟩

-- A sum that wraps lands before the index, so the test lets it pass.
theorem bytes_safe_iff (bounded : Bounded size u) (small : size < 2^31) : Safe u (.bytes n) ↔ Fits u (.bytes n) := by
  have length := bounded.length
  have inside := bounded.inside
  have limit := n.toNat_lt
  constructor
  · intro safe
    by_contra wraps
    simp only [Fits] at wraps
    have copied : Copies u n := by
      simp only [Copies]
      omega
    have last := safe.2.1 copied (n.toNat - 1) (by omega)
    omega
  · intro fits
    have sum : (u.ind + n.toNat) % 2^32 = u.ind + n.toNat := Nat.mod_eq_of_lt fits
    refine ⟨?_,?_,?_⟩
    · unfold Unmarshall.rawbytes
      split
      · exact ⟨Nat.le_refl _,by dsimp only; omega,rfl⟩
      · exact ⟨by dsimp only; omega,by dsimp only; omega,rfl⟩
    · intro copied i low
      simp only [Copies,sum] at copied
      omega
    · intro exceeds ss
      unfold Unmarshall.rawbytesInto
      rw [if_pos (by omega)]

theorem safe_iff (bounded : Bounded size u) (small : size < 2^31) (prim : Prim) : Safe u prim ↔ Fits u prim := by
  cases prim with
  | byte => exact iff_of_true (byte_safe bounded) trivial
  | bytes n => exact bytes_safe_iff bounded small

theorem Moves.bounded (moves : Moves u after) (bounded : Bounded size u) : Bounded size after :=
  ⟨by rw [moves.same,bounded.length],bounded.length ▸ moves.inside⟩

theorem step_bounded (bounded : Bounded size u) (small : size < 2^31) (fits : Fits u prim) (taken : step u prim = some after) :
    Bounded size after := by
  have safe := (safe_iff bounded small prim).mpr fits
  cases prim with
  | byte => cases Option.some.inj taken; exact safe.1.bounded bounded
  | bytes n => cases Option.some.inj taken; exact safe.1.bounded bounded

theorem unpackReplyHeader_long (pdu : List UInt8) (long : rpcHeaderSz ≤ pdu.length) :
    (Unmarshall.ofPdu pdu).unpackReplyHeader.2 = ⟨pdu,rpcHeaderSz,true⟩ := by
  unfold rpcHeaderSz at long
  have four : (pdu.take 4).length = 4 := by rw [List.length_take]; omega
  have whole := List.take_append_drop 4 pdu
  have size : 20 ≤ (pdu.drop 4).length := by rw [List.length_drop]; omega
  obtain ⟨xid,tail,first⟩ := Unmarshall.be32_split (pdu.drop 4) (by omega)
  rw [first,List.length_append,Words.be32_length] at size
  obtain ⟨ret,body,rfl⟩ := Unmarshall.be32_split tail (by omega)
  have layout : pdu = pdu.take 4 ++ ReplyHeader.encode ⟨xid,ret.toInt32⟩ ++ body := by
    rw [first] at whole
    simpa [ReplyHeader.encode,List.append_assoc] using whole.symm
  have read := Unmarshall.unpackReplyHeader_pdu (pdu.take 4) body four ⟨xid,ret.toInt32⟩
  rw [← layout] at read
  rw [read]

theorem decodes_safe_iff (pdu : List UInt8) (shapes : List Shape) (long : rpcHeaderSz ≤ pdu.length)
    (small : pdu.length < 2^31) (u : Unmarshall)
    (header : u = (Unmarshall.ofPdu pdu).unpackReqHeader.2 ∨ u = (Unmarshall.ofPdu pdu).unpackReplyHeader.2) :
    Machine.Runs step Safe u (allPrims shapes u) (Unmarshall.getItems shapes u).2 ↔
      Machine.Runs step Fits u (allPrims shapes u) (Unmarshall.getItems shapes u).2 := by
  have behind : u = ⟨pdu,rpcHeaderSz,true⟩ := by
    rcases header with request | reply
    · exact request.trans (Unmarshall.unpackReqHeader_long pdu long)
    · exact reply.trans (unpackReplyHeader_long pdu long)
  have start : Bounded pdu.length u := behind ▸ ⟨rfl,long⟩
  apply (getItems_runs shapes u).steps_iff
  intro earlier before prim after _ good _ taken
  have bounded : Bounded pdu.length before :=
    good.invariant start (fun _ _ _ bounded fits taken => step_bounded bounded small fits taken)
  exact safe_iff bounded small prim

theorem short_decodes_safe :
    let pdu := List.replicate 24 0 ++ [0,0,0,2,97,98,0,0,0,2,7,8]
    let u := (Unmarshall.ofPdu pdu).unpackReqHeader.2
    Machine.Runs step Safe u (allPrims [.base .string,.vector (.base .uchar)] u)
      (Unmarshall.getItems [.base .string,.vector (.base .uchar)] u).2 := by
  intro pdu u
  refine (decodes_safe_iff pdu _ (by decide) (by decide) u (.inl rfl)).mpr ?_
  have seen : (Machine.exec (Machine.guarded step Fits) u (allPrims [.base .string,.vector (.base .uchar)] u)).map id =
      some (Unmarshall.getItems [.base .string,.vector (.base .uchar)] u).2 := by decide +kernel
  obtain ⟨t,path,rfl⟩ := Machine.guarded_observed seen
  exact path

-- A length of 2^32 - 28 where the index is 28: the sum is 0, and the string is
-- built from almost 2^32 bytes behind an end that is already reached.
theorem wrapped_length_unsafe :
    let pdu := List.replicate 24 0 ++ [255,255,255,228]
    let u := (Unmarshall.ofPdu pdu).unpackReqHeader.2
    rpcHeaderSz ≤ pdu.length ∧
      ¬ Machine.Runs step Safe u (allPrims [.base .string] u) (Unmarshall.getItems [.base .string] u).2 := by
  refine ⟨by decide,?_⟩
  rw [Unmarshall.unpackReqHeader_long _ (by decide)]
  intro whole
  have listed : allPrims [.base .string] ⟨List.replicate 24 0 ++ [255,255,255,228],rpcHeaderSz,true⟩ =
      word ++ [.bytes 4294967268] := by decide +kernel
  rw [listed] at whole
  obtain ⟨mid,prior,safe,_⟩ := whole.snoc_inv
  cases prior.deterministic (word_runs _)
  have reached : (⟨List.replicate 24 0 ++ [255,255,255,228],rpcHeaderSz,true⟩ : Unmarshall).unpack.2 =
      ⟨List.replicate 24 0 ++ [255,255,255,228],28,true⟩ := by decide +kernel
  rw [reached] at safe
  have copied : Copies ⟨List.replicate 24 0 ++ [255,255,255,228],28,true⟩ 4294967268 := by
    simp only [Copies]
    decide
  exact absurd (safe.2.1 copied 0 (by decide)) (by decide)

end Decodes
end YfsLab
