import YfsLab.Containers
import YfsLab.Rpcs

namespace YfsLab

-- The argument types of a method that one of the seven overloads of rpcs::reg
-- takes.
structure Signature where
  args : List Ty
  some_ : 1 ≤ args.length
  atMost : args.length ≤ 7

-- What a call of h1::fn comes to: its return value, the arguments that the
-- method was called with, and the reply it leaves.
structure Outcome where
  ret : Int32
  called : Option (List Val)
  rep : Marshall

-- h1::fn. The method is any function of its arguments; its result r may be of
-- every type that can be marshalled.
def fn (sig : Signature) (meth : List Val → Int32 × Item) (args : Unmarshall) (ret : Marshall) : Outcome :=
  let (values,args) := args.gets sig.args
  if !args.okdone then ⟨RpcConst.unmarshalArgsFailure,none,ret⟩
  else
    let (b,r) := meth values
    ⟨b,some values,r.1.put ret r.2⟩

namespace Unmarshall
variable {u : Unmarshall} {left : List UInt8}

theorem rawbyte_good (good : u.rawbyte.2.ok = true) : u.ok = true := by
  unfold rawbyte at good
  split at good
  · cases good
  · exact good

theorem rawbyte_exact (at_ : u.At left) (good : u.rawbyte.2.ok = true) :
    ∃ c tail, left = c :: tail ∧ u.rawbyte = (c.toInt8.toInt32.toUInt32,u.advance 1) ∧ (u.advance 1).At tail := by
  cases left with
  | nil =>
    have ended : u.buf[u.ind]? = none := by
      have rest := at_.rest
      unfold Unmarshall.rest at rest
      exact List.getElem?_eq_none (List.drop_eq_nil_iff.mp rest)
    simp [rawbyte,ended] at good
  | cons c tail => exact ⟨c,tail,rfl,(rawbyte_rest at_.rest).1,@At.advance u [c] tail at_⟩

theorem unpack_exact (at_ : u.At left) (good : u.unpack.2.ok = true) :
    ∃ tail, left = Words.be32 u.unpack.1 ++ tail ∧ u.unpack.2 = u.advance 4 ∧ (u.advance 4).At tail := by
  have fourth : u.rawbyte.2.rawbyte.2.rawbyte.2.rawbyte.2.ok = true := good
  have third := rawbyte_good fourth
  have second := rawbyte_good third
  have first := rawbyte_good second
  obtain ⟨a,_,rfl,one,afterA⟩ := rawbyte_exact at_ first
  rw [one] at second third fourth
  obtain ⟨b,_,rfl,two,afterB⟩ := rawbyte_exact afterA second
  rw [two] at third fourth
  obtain ⟨c,_,rfl,three,afterC⟩ := rawbyte_exact afterB third
  rw [three] at fourth
  obtain ⟨d,tail,rfl,four,afterD⟩ := rawbyte_exact afterC fourth
  have read := (unpack_rest at_.rest).1
  refine ⟨tail,?_,by rw [read],afterD⟩
  rw [read,Words.be32_join32]
  rfl

theorem unpack16_exact (at_ : u.At left) (good : u.unpack16.2.ok = true) :
    ∃ tail, left = Words.byte16 u.unpack16.1 8 :: Words.byte16 u.unpack16.1 0 :: tail ∧
      u.unpack16.2 = u.advance 2 ∧ (u.advance 2).At tail := by
  have second : u.rawbyte.2.rawbyte.2.ok = true := good
  have first := rawbyte_good second
  obtain ⟨a,_,rfl,one,afterA⟩ := rawbyte_exact at_ first
  rw [one] at second
  obtain ⟨b,tail,rfl,two,afterB⟩ := rawbyte_exact afterA second
  obtain ⟨high,low⟩ := Words.bytes_join16 a b
  have same : a :: b :: tail = Words.byte16 (Words.join16 a b) 8 :: Words.byte16 (Words.join16 a b) 0 :: tail := by
    rw [high,low]
  have read := (unpack16_rest (at_.rest.trans same)).1
  exact ⟨tail,by rw [read]; exact same,by rw [read],afterB⟩

theorem unpack_good (good : u.unpack.2.ok = true) : u.ok = true :=
  rawbyte_good (rawbyte_good (rawbyte_good (rawbyte_good good)))

theorem rawbytes_exact (at_ : u.At left) (noWrap : u.ind + n.toNat < 2^32) (good : (u.rawbytes n).2.ok = true) :
    ∃ s tail, n.toNat = s.length ∧ left = s ++ tail ∧ u.rawbytes n = (s,u.advance s.length) ∧
      (u.advance s.length).At tail := by
  by_cases beyond : (u.ind + n.toNat) % 2^32 > u.buf.length
  · rw [rawbytes,if_pos beyond] at good
    cases good
  · rw [Nat.mod_eq_of_lt noWrap] at beyond
    have lengths := congrArg List.length at_.rest
    simp only [rest,List.length_drop] at lengths
    have size : n.toNat = (left.take n.toNat).length := by
      rw [List.length_take]
      omega
    have split : left = left.take n.toNat ++ left.drop n.toNat := (List.take_append_drop _ _).symm
    have read := rawbytes_rest (at_.rest.trans split) at_.inside at_.small size
    exact ⟨_,_,size,split,read.1,At.advance (split ▸ at_)⟩

theorem get_good (ty : Ty) (good : (u.get ty).2.ok = true) : u.ok = true := by
  cases ty with
  | uchar => exact rawbyte_good good
  | char => exact rawbyte_good good
  | ushort => exact rawbyte_good (rawbyte_good good)
  | short => exact rawbyte_good (rawbyte_good good)
  | uint => exact unpack_good good
  | int => exact unpack_good good
  | ulonglong =>
    simp only [get] at good
    exact unpack_good (unpack_good good)
  | string =>
    simp only [get] at good
    split at good
    · rename_i read
      exact unpack_good read
    · exact unpack_good good

-- No length prefix that the reader meets makes _ind + n wrap.
def Unwrapped (u : Unmarshall) : Ty → Prop
  | .string => u.unpack.2.ok = true → u.unpack.2.ind + u.unpack.1.toNat < 2^32
  | _ => True

def NoWrap : List Ty → Unmarshall → Prop
  | [],_ => True
  | ty :: rest,u => u.Unwrapped ty ∧ NoWrap rest (u.get ty).2

theorem get_exact (ty : Ty) (at_ : u.At left) (unwrapped : u.Unwrapped ty) (good : (u.get ty).2.ok = true) :
    ∃ tail, left = (u.get ty).1.encode ++ tail ∧ (u.get ty).2.At tail := by
  cases ty with
  | uchar =>
    obtain ⟨c,tail,rfl,read,after⟩ := rawbyte_exact at_ good
    simp only [get,read]
    exact ⟨tail,by rw [Words.signed_low]; rfl,after⟩
  | char =>
    obtain ⟨c,tail,rfl,read,after⟩ := rawbyte_exact at_ good
    simp only [get,read]
    exact ⟨tail,by rw [Words.signed_low,Val.encode]; simp,after⟩
  | ushort =>
    obtain ⟨tail,rfl,read,after⟩ := unpack16_exact at_ good
    exact ⟨tail,rfl,by simp only [get]; rw [read]; exact after⟩
  | short =>
    obtain ⟨tail,rfl,read,after⟩ := unpack16_exact at_ good
    exact ⟨tail,by simp [get,Val.encode],by simp only [get]; rw [read]; exact after⟩
  | uint =>
    obtain ⟨tail,rfl,read,after⟩ := unpack_exact at_ good
    exact ⟨tail,rfl,by simp only [get]; rw [read]; exact after⟩
  | int =>
    obtain ⟨tail,rfl,read,after⟩ := unpack_exact at_ good
    exact ⟨tail,by simp [get,Val.encode],by simp only [get]; rw [read]; exact after⟩
  | ulonglong =>
    simp only [get] at good ⊢
    obtain ⟨_,rfl,high,after⟩ := unpack_exact at_ (unpack_good good)
    rw [high] at good
    obtain ⟨tail,rfl,low,after⟩ := unpack_exact after good
    obtain ⟨first,second⟩ := Words.words_join64 u.unpack.1 (u.advance 4).unpack.1
    refine ⟨tail,?_,by rw [high,low]; exact after⟩
    rw [high,Val.encode,first,second,List.append_assoc]
  | string =>
    have read : u.unpack.2.ok = true := by
      simp only [get] at good
      split at good
      · rename_i read
        exact read
      · exact good
    simp only [get,read,if_true] at good ⊢
    obtain ⟨_,rfl,prefixed,after⟩ := unpack_exact at_ read
    have bound := unwrapped read
    rw [prefixed] at good bound ⊢
    obtain ⟨s,tail,size,rfl,text,after⟩ := rawbytes_exact after bound good
    have count : UInt32.ofNat s.length = u.unpack.1 := by rw [← size,UInt32.ofNat_toNat]
    refine ⟨tail,?_,by rw [text]; exact after⟩
    rw [text,Val.encode,count,List.append_assoc]

theorem gets_good (tys : List Ty) (good : (u.gets tys).2.ok = true) : u.ok = true := by
  induction tys generalizing u with
  | nil => exact good
  | cons ty rest ih => exact get_good ty (ih good)

theorem gets_exact (tys : List Ty) (at_ : u.At left) (noWrap : NoWrap tys u) (done : (u.gets tys).2.okdone = true) :
    left = encodes (u.gets tys).1 ∧ (u.gets tys).1.map Val.ty = tys := by
  induction tys generalizing u left with
  | nil => exact ⟨at_.okdone.mp done,rfl⟩
  | cons ty rest ih =>
    have good : ((u.get ty).2.gets rest).2.ok = true := (Bool.and_eq_true_iff.mp done).1
    obtain ⟨tail,rfl,after⟩ := get_exact ty at_ noWrap.1 (gets_good rest good)
    obtain ⟨rfl,types⟩ := ih after noWrap.2 done
    refine ⟨?_,?_⟩
    · simp only [gets,encodes,List.flatMap_cons]
    · simp only [gets,List.map_cons,types,get_ty]

theorem be32_split (bytes : List UInt8) (long : 4 ≤ bytes.length) : ∃ x tail, bytes = Words.be32 x ++ tail := by
  match bytes,long with
  | a :: b :: c :: d :: tail,_ => exact ⟨Words.join32 a b c d,tail,by rw [Words.be32_join32]; rfl⟩

theorem unpackReqHeader_long (pdu : List UInt8) (long : rpcHeaderSz ≤ pdu.length) :
    (ofPdu pdu).unpackReqHeader.2 = ⟨pdu,rpcHeaderSz,true⟩ := by
  unfold rpcHeaderSz at long
  have four : (pdu.take 4).length = 4 := by rw [List.length_take]; omega
  have whole := List.take_append_drop 4 pdu
  have size : 20 ≤ (pdu.drop 4).length := by rw [List.length_drop]; omega
  obtain ⟨xid,tail,first⟩ := be32_split (pdu.drop 4) (by omega)
  rw [first,List.length_append,Words.be32_length] at size
  obtain ⟨proc,tail,rfl⟩ := be32_split tail (by omega)
  rw [List.length_append,Words.be32_length] at size
  obtain ⟨cltNonce,tail,rfl⟩ := be32_split tail (by omega)
  rw [List.length_append,Words.be32_length] at size
  obtain ⟨srvNonce,tail,rfl⟩ := be32_split tail (by omega)
  rw [List.length_append,Words.be32_length] at size
  obtain ⟨xidRep,body,rfl⟩ := be32_split tail (by omega)
  have layout : pdu = pdu.take 4 ++ ReqHeader.encode ⟨xid,proc,cltNonce,srvNonce,xidRep⟩ ++ body := by
    rw [first] at whole
    simpa only [ReqHeader.encode,List.append_assoc] using whole.symm
  have read := unpackReqHeader_pdu (pdu.take 4) body four ⟨xid,proc,cltNonce,srvNonce,xidRep⟩
  rw [← layout] at read
  rw [read]

end Unmarshall

def Signature.Tuple (sig : Signature) (body : List UInt8) (values : List Val) : Prop :=
  values.map Val.ty = sig.args ∧ body = encodes values

section Grammar
open Unmarshall
variable {sig : Signature} {u : Unmarshall} {body : List UInt8}

theorem gets_tuple (at_ : u.At body) (tuple : sig.Tuple body values) :
    (u.gets sig.args).1 = values ∧ (u.gets sig.args).2.okdone = true := by
  obtain ⟨types,rfl⟩ := tuple
  rw [← List.append_nil (encodes values)] at at_
  have read := (gets_encodes values at_.rest at_.good at_.inside at_.small).1
  rw [← types,read]
  exact ⟨rfl,at_.advance.okdone.mpr rfl⟩

theorem fn_tuple (meth : List Val → Int32 × Item) (rep : Marshall) (at_ : u.At body) (tuple : sig.Tuple body values) :
    fn sig meth u rep = ⟨(meth values).1,some values,(meth values).2.1.put rep (meth values).2.2⟩ := by
  obtain ⟨rfl,done⟩ := gets_tuple at_ tuple
  simp [fn,done]

theorem fn_refused (meth : List Val → Int32 × Item) (rep : Marshall) (at_ : u.At body) (noWrap : NoWrap sig.args u)
    (none_ : ∀ values, ¬ sig.Tuple body values) : fn sig meth u rep = ⟨RpcConst.unmarshalArgsFailure,none,rep⟩ := by
  have refused : (u.gets sig.args).2.okdone = false := by
    cases done : (u.gets sig.args).2.okdone with
    | false => rfl
    | true =>
      obtain ⟨encoded,types⟩ := gets_exact sig.args at_ noWrap done
      exact absurd ⟨types,encoded⟩ (none_ _)
  simp [fn,refused]

theorem fn_called {C : Type} (meth : List Val → Int32 × Item) (rep : Marshall) (handler : Rpcs.Handler)
    (same : handler.args = sig.args) (job : Rpcs.Job C) :
    (fn sig meth job.req rep).called = Rpcs.arguments handler job := by
  unfold fn Rpcs.arguments
  rw [same]
  cases done : (job.req.gets sig.args).2.okdone <;> simp [done]

-- The request stands after its header, and the size of a PDU is an int. What
-- the method returns is the return value, and its result goes into the reply.
theorem fn_calls_iff_tuple (sig : Signature) (meth : List Val → Int32 × Item) (rep : Marshall) (pdu : List UInt8)
    (long : rpcHeaderSz ≤ pdu.length) (sized : pdu.length < 2^31)
    (noWrap : NoWrap sig.args (ofPdu pdu).unpackReqHeader.2) :
    let body := pdu.drop rpcHeaderSz
    let outcome := fn sig meth (ofPdu pdu).unpackReqHeader.2 rep
    (outcome.called.isSome = true ↔ ∃ values, sig.Tuple body values) ∧
      (∀ values, sig.Tuple body values →
        outcome = ⟨(meth values).1,some values,(meth values).2.1.put rep (meth values).2.2⟩ ∧
          ∀ other, sig.Tuple body other → other = values) ∧
      ((∀ values, ¬ sig.Tuple body values) → outcome = ⟨RpcConst.unmarshalArgsFailure,none,rep⟩) := by
  intro body outcome
  have header := unpackReqHeader_long pdu long
  have at_ : (ofPdu pdu).unpackReqHeader.2.At body := by
    rw [header]
    exact ⟨rfl,rfl,long,by show pdu.length < 2^32; omega⟩
  refine ⟨⟨fun called => ?_,?_⟩,fun values tuple => ⟨fn_tuple meth rep at_ tuple,fun other again => ?_⟩,
    fn_refused meth rep at_ noWrap⟩
  · by_contra none_
    have refused := fn_refused meth rep at_ noWrap (not_exists.mp none_)
    rw [show outcome = _ from refused] at called
    cases called
  · rintro ⟨values,tuple⟩
    rw [show outcome = _ from fn_tuple meth rep at_ tuple]
    rfl
  · rw [← (gets_tuple at_ tuple).1,(gets_tuple at_ again).1]

def intString : Signature := ⟨[.int,.string],by decide,by decide⟩
def wellFormed : List UInt8 := List.replicate 24 0 ++ [0,0,0,5,0,0,0,2,97,98]

def countArgs (values : List Val) : Int32 × Item := (Int32.ofNat values.length,⟨.base .int,⟨.int 4,rfl⟩⟩)

theorem well_formed_called :
    let outcome := fn intString countArgs (ofPdu wellFormed).unpackReqHeader.2 (.new fun _ => 0)
    outcome.ret = 2 ∧ outcome.called = some [.int 5,.string [97,98]] ∧
      outcome.rep = (Marshall.new fun _ => 0).pack 4 := by
  intro outcome
  have noWrap : NoWrap intString.args (ofPdu wellFormed).unpackReqHeader.2 := by
    rw [unpackReqHeader_long wellFormed (by decide)]
    refine ⟨trivial,fun _ => ?_,trivial⟩
    decide
  have grammar := fn_calls_iff_tuple intString countArgs (.new fun _ => 0) wellFormed (by decide) (by decide) noWrap
  have called := (grammar.2.1 [.int 5,.string [97,98]] ⟨rfl,by decide⟩).1
  rw [show outcome = _ from called]
  exact ⟨rfl,rfl,rfl⟩

end Grammar
end YfsLab
