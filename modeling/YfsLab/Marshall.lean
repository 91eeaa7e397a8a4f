import YfsLab.Lib.Words

namespace YfsLab

-- The 32-bit fields of the headers. `int` fields of the source are compared
-- as unsigned ones wherever dispatch uses them, except the signed ret.
structure ReqHeader where
  xid : UInt32
  proc : UInt32
  cltNonce : UInt32
  srvNonce : UInt32
  xidRep : UInt32
  deriving DecidableEq, Repr

structure ReplyHeader where
  xid : UInt32
  ret : Int32
  deriving DecidableEq, Repr

-- sizeof(rpc_sz_t), sizeof(req_header) + sizeof(rpc_sz_t), DEFAULT_RPC_SZ; the
-- build does not define RPC_CHECKSUMMING.
def rpcSzSize : Nat := 4
def rpcHeaderSz : Nat := 24
def defaultRpcSz : Nat := 1024

-- rpc_const.
namespace RpcConst
def bind : UInt32 := 1
def timeoutFailure : Int32 := -1
def unmarshalArgsFailure : Int32 := -2
def unmarshalReplyFailure : Int32 := -3
def atmostonceFailure : Int32 := -4
def oldsrvFailure : Int32 := -5
end RpcConst

-- The types operator<< and operator>> take in rpc.cc, and their values.
inductive Ty where
  | uchar | char | ushort | short | uint | int | ulonglong | string
  deriving DecidableEq, Repr

inductive Val where
  | uchar (x : UInt8)
  | char (x : Int8)
  | ushort (x : UInt16)
  | short (x : Int16)
  | uint (x : UInt32)
  | int (x : Int32)
  | ulonglong (x : UInt64)
  | string (s : List UInt8)
  deriving DecidableEq, Repr

def Val.ty : Val → Ty
  | .uchar _ => .uchar
  | .char _ => .char
  | .ushort _ => .ushort
  | .short _ => .short
  | .uint _ => .uint
  | .int _ => .int
  | .ulonglong _ => .ulonglong
  | .string _ => .string

-- class marshall. The buffer is the memory behind _buf: what malloc and realloc
-- leave in it is arbitrary, so a fresh object takes that content as argument.
structure Marshall where
  buf : Nat → UInt8
  capa : Nat
  ind : Nat

namespace Marshall

def new (junk : Nat → UInt8) : Marshall := ⟨junk,defaultRpcSz,rpcHeaderSz⟩

def rawbyte (m : Marshall) (x : UInt8) : Marshall :=
  {buf:=fun i => if i = m.ind then x else m.buf i,
   capa:=if m.ind ≥ m.capa then m.capa*2 else m.capa,
   ind:=m.ind+1}

def rawbytes (m : Marshall) (p : List UInt8) : Marshall :=
  {buf:=fun i => if m.ind ≤ i then p.getD (i-m.ind) (m.buf i) else m.buf i,
   capa:=if m.ind+p.length > m.capa then (if m.capa > p.length then 2*m.capa else m.capa+p.length) else m.capa,
   ind:=m.ind+p.length}

-- marshall::pack, and operator<< of unsigned int with the same four bytes.
def pack (m : Marshall) (x : UInt32) : Marshall :=
  (((m.rawbyte (Words.byte32 x 24)).rawbyte (Words.byte32 x 16)).rawbyte (Words.byte32 x 8)).rawbyte
    (Words.byte32 x 0)

def put (m : Marshall) : Val → Marshall
  | .uchar x => m.rawbyte x
  | .char x => m.rawbyte x.toUInt8
  | .ushort x => (m.rawbyte (Words.byte16 x 8)).rawbyte (Words.byte16 x 0)
  | .short x => (m.rawbyte (Words.byte16 x.toUInt16 8)).rawbyte (Words.byte16 x.toUInt16 0)
  | .uint x => m.pack x
  | .int x => m.pack x.toUInt32
  | .ulonglong x => (m.pack (x >>> 32).toUInt32).pack x.toUInt32
  | .string s => (m.pack (UInt32.ofNat s.length)).rawbytes s

def puts (m : Marshall) (values : List Val) : Marshall := values.foldl put m

def packReqHeader (m : Marshall) (h : ReqHeader) : Marshall :=
  {((((({m with ind:=rpcSzSize}).pack h.xid).pack h.proc).pack h.cltNonce).pack h.srvNonce).pack h.xidRep
    with ind:=m.ind}

def packReplyHeader (m : Marshall) (h : ReplyHeader) : Marshall :=
  {(({m with ind:=rpcSzSize}).pack h.xid).pack h.ret.toUInt32 with ind:=m.ind}

-- The PDU handed to connection::send: cstr() with size().
def str (m : Marshall) : List UInt8 := (List.range m.ind).map m.buf

@[simp] theorem str_length (m : Marshall) : m.str.length = m.ind := by simp [str]

@[simp] theorem str_rawbyte (m : Marshall) (x : UInt8) : (m.rawbyte x).str = m.str ++ [x] := by
  simp only [str,rawbyte,List.range_succ,List.map_append,List.map_cons,List.map_nil,if_true]
  congr 1
  apply List.map_congr_left
  intro i member
  have small := List.mem_range.mp member
  simp [Nat.ne_of_lt small]

@[simp] theorem str_rawbytes (m : Marshall) (p : List UInt8) : (m.rawbytes p).str = m.str ++ p := by
  apply List.ext_getElem
  · simp [rawbytes]
  · intro i left right
    simp only [str_length,rawbytes,List.length_append] at left right
    by_cases before : i < m.ind
    · have inside : i < m.str.length := by simpa using before
      rw [List.getElem_append_left inside]
      simp [str,rawbytes,Nat.not_le.mpr before]
    · have after : m.ind ≤ i := by omega
      have outside : m.str.length ≤ i := by simpa using after
      rw [List.getElem_append_right outside]
      have bound : i - m.ind < p.length := by omega
      simp [str,rawbytes,after,List.getElem?_eq_getElem bound]

@[simp] theorem str_pack (m : Marshall) (x : UInt32) : (m.pack x).str = m.str ++ Words.be32 x := by
  simp [pack,Words.be32]

end Marshall

def Val.encode : Val → List UInt8
  | .uchar x => [x]
  | .char x => [x.toUInt8]
  | .ushort x => [Words.byte16 x 8,Words.byte16 x 0]
  | .short x => [Words.byte16 x.toUInt16 8,Words.byte16 x.toUInt16 0]
  | .uint x => Words.be32 x
  | .int x => Words.be32 x.toUInt32
  | .ulonglong x => Words.be32 (x >>> 32).toUInt32 ++ Words.be32 x.toUInt32
  | .string s => Words.be32 (UInt32.ofNat s.length) ++ s

def encodes (values : List Val) : List UInt8 := values.flatMap Val.encode

namespace Marshall

@[simp] theorem str_put (m : Marshall) (v : Val) : (m.put v).str = m.str ++ v.encode := by
  cases v <;> simp [put,Val.encode]

@[simp] theorem str_puts (m : Marshall) (values : List Val) : (m.puts values).str = m.str ++ encodes values := by
  induction values generalizing m with
  | nil => simp [puts,encodes]
  | cons v rest ih =>
    have step : m.puts (v :: rest) = (m.put v).puts rest := rfl
    rw [step,ih,str_put]
    simp [encodes]

theorem str_overwrite (m packed : Marshall) (header : List UInt8) (room : 4+header.length ≤ m.ind)
    (size : packed.ind = 4+header.length)
    (written : packed.str = ({m with ind:=4} : Marshall).str ++ header)
    (untouched : ∀ i, 4+header.length ≤ i → packed.buf i = m.buf i) :
    ({packed with ind:=m.ind} : Marshall).str = m.str.take 4 ++ header ++ m.str.drop (4+header.length) := by
  have split : ({packed with ind:=m.ind} : Marshall).str =
      packed.str ++ m.str.drop (4+header.length) := by
    apply List.ext_getElem
    · simp only [str_length,List.length_append,List.length_drop]; omega
    · intro i left right
      simp only [str_length] at left
      by_cases inside : i < packed.str.length
      · rw [List.getElem_append_left inside]
        simp [str]
      · rw [List.getElem_append_right (Nat.not_lt.mp inside)]
        rw [str_length,size] at inside
        have shifted : 4+header.length + (i - (4+header.length)) = i := by omega
        simp [str,size,shifted,untouched i (by omega)]
  have front : ({m with ind:=4} : Marshall).str = m.str.take 4 := by
    apply List.ext_getElem
    · simp only [str_length,List.length_take]; omega
    · intro i left right; simp [str]
  rw [split,written,front]

@[simp] theorem pack_ind (m : Marshall) (x : UInt32) : (m.pack x).ind = m.ind+4 := rfl

theorem pack_untouched (m : Marshall) (x : UInt32) (after : m.ind+4 ≤ i) : (m.pack x).buf i = m.buf i := by
  have different : ∀ k < 4, i ≠ m.ind+k := by omega
  have zero := different 0 (by omega)
  have one := different 1 (by omega)
  have two := different 2 (by omega)
  have three := different 3 (by omega)
  simp only [Nat.add_zero] at zero
  simp [pack,rawbyte,zero,one,two,three,Nat.add_assoc]

end Marshall

def ReqHeader.encode (h : ReqHeader) : List UInt8 :=
  Words.be32 h.xid ++ Words.be32 h.proc ++ Words.be32 h.cltNonce ++ Words.be32 h.srvNonce ++ Words.be32 h.xidRep

def ReplyHeader.encode (h : ReplyHeader) : List UInt8 := Words.be32 h.xid ++ Words.be32 h.ret.toUInt32

@[simp] theorem ReqHeader.encode_length (h : ReqHeader) : h.encode.length = 20 := rfl
@[simp] theorem ReplyHeader.encode_length (h : ReplyHeader) : h.encode.length = 8 := rfl

namespace Marshall

theorem str_packReqHeader (m : Marshall) (h : ReqHeader) (room : rpcHeaderSz ≤ m.ind) :
    (m.packReqHeader h).str = m.str.take 4 ++ h.encode ++ m.str.drop 24 := by
  unfold rpcHeaderSz at room
  refine str_overwrite m _ h.encode (by simpa using room) (by simp [rpcSzSize]) ?_ ?_
  · simp [ReqHeader.encode,rpcSzSize]
  · intro i after
    simp only [ReqHeader.encode_length] at after
    iterate 5 rw [pack_untouched _ _ (by simp [rpcSzSize]; omega)]

theorem str_packReplyHeader (m : Marshall) (h : ReplyHeader) (room : rpcHeaderSz ≤ m.ind) :
    (m.packReplyHeader h).str = m.str.take 4 ++ h.encode ++ m.str.drop 12 := by
  unfold rpcHeaderSz at room
  refine str_overwrite m _ h.encode (by simp; omega) (by simp [rpcSzSize]) ?_ ?_
  · simp [ReplyHeader.encode,rpcSzSize]
  · intro i after
    simp only [ReplyHeader.encode_length] at after
    iterate 2 rw [pack_untouched _ _ (by simp [rpcSzSize]; omega)]

end Marshall

-- class unmarshall; _sz is the length of the buffer.
structure Unmarshall where
  buf : List UInt8
  ind : Nat
  ok : Bool
  deriving DecidableEq, Repr

namespace Unmarshall

def null : Unmarshall := ⟨[],0,false⟩
def ofPdu (b : List UInt8) : Unmarshall := ⟨b,0,true⟩

-- The byte goes through a (signed) char into the unsigned result.
def rawbyte (u : Unmarshall) : UInt32 × Unmarshall :=
  match u.buf[u.ind]? with
  | none => (0,{u with ok:=false})
  | some c => (c.toInt8.toInt32.toUInt32,{u with ind:=u.ind+1})

-- unmarshall::unpack, and operator>> of unsigned int and int.
def unpack (u : Unmarshall) : UInt32 × Unmarshall :=
  let (a,u) := u.rawbyte
  let (b,u) := u.rawbyte
  let (c,u) := u.rawbyte
  let (d,u) := u.rawbyte
  (((a &&& 0xff) <<< 24) ||| ((b &&& 0xff) <<< 16) ||| ((c &&& 0xff) <<< 8) ||| (d &&& 0xff),u)

def unpack16 (u : Unmarshall) : UInt16 × Unmarshall :=
  let (a,u) := u.rawbyte
  let (b,u) := u.rawbyte
  ((((a &&& 0xff) <<< 8).toUInt16) ||| (b &&& 0xff).toUInt16,u)

-- The comparison and the += add a signed index and an unsigned length modulo
-- 2^32.
def rawbytes (u : Unmarshall) (n : UInt32) : List UInt8 × Unmarshall :=
  if (u.ind + n.toNat) % 2^32 > u.buf.length then ([],{u with ok:=false})
  else ((u.buf.drop u.ind).take n.toNat,{u with ind:=(u.ind+n.toNat) % 2^32})

-- operator>>. A string that is not read keeps its default, the empty one.
def get (u : Unmarshall) : Ty → Val × Unmarshall
  | .uchar => let (x,u) := u.rawbyte; (.uchar x.toUInt8,u)
  | .char => let (x,u) := u.rawbyte; (.char x.toUInt8.toInt8,u)
  | .ushort => let (x,u) := u.unpack16; (.ushort x,u)
  | .short => let (x,u) := u.unpack16; (.short x.toInt16,u)
  | .uint => let (x,u) := u.unpack; (.uint x,u)
  | .int => let (x,u) := u.unpack; (.int x.toInt32,u)
  | .ulonglong =>
    let (h,u) := u.unpack
    let (l,u) := u.unpack
    (.ulonglong (Words.join64 h l),u)
  | .string =>
    let (sz,u) := u.unpack
    if u.ok then let (s,u) := u.rawbytes sz; (.string s,u) else (.string [],u)

def gets (u : Unmarshall) : List Ty → List Val × Unmarshall
  | [] => ([],u)
  | ty :: rest =>
    let (v,u) := u.get ty
    let (values,u) := u.gets rest
    (v :: values,u)

def okdone (u : Unmarshall) : Bool := u.ok && u.ind == u.buf.length

def unpackReqHeader (u : Unmarshall) : ReqHeader × Unmarshall :=
  let (xid,u) := ({u with ind:=rpcSzSize} : Unmarshall).unpack
  let (proc,u) := u.unpack
  let (cltNonce,u) := u.unpack
  let (srvNonce,u) := u.unpack
  let (xidRep,u) := u.unpack
  (⟨xid,proc,cltNonce,srvNonce,xidRep⟩,{u with ind:=rpcHeaderSz})

def unpackReplyHeader (u : Unmarshall) : ReplyHeader × Unmarshall :=
  let (xid,u) := ({u with ind:=rpcSzSize} : Unmarshall).unpack
  let (ret,u) := u.unpack
  (⟨xid,ret.toInt32⟩,{u with ind:=rpcHeaderSz})

def takeIn (another : Unmarshall) : Unmarshall :=
  ⟨another.buf,rpcHeaderSz,decide (rpcHeaderSz ≤ another.buf.length)⟩

def rest (u : Unmarshall) : List UInt8 := u.buf.drop u.ind

def advance (u : Unmarshall) (n : Nat) : Unmarshall := {u with ind:=u.ind+n}

variable {u : Unmarshall} {a b c d : UInt8} {tail : List UInt8}

theorem rest_cons (left : u.rest = c :: tail) :
    u.buf[u.ind]? = some c ∧ (u.advance 1).rest = tail := by
  unfold rest at left
  constructor
  · have first := congrArg List.head? left
    simpa [List.head?_drop] using first
  · unfold rest advance
    rw [← List.drop_drop,left]
    rfl

theorem rawbyte_rest (left : u.rest = c :: tail) :
    u.rawbyte = (c.toInt8.toInt32.toUInt32,u.advance 1) ∧ (u.advance 1).rest = tail := by
  obtain ⟨here,after⟩ := rest_cons left
  exact ⟨by simp [rawbyte,here,advance],after⟩

theorem unpack_rest (left : u.rest = a :: b :: c :: d :: tail) :
    u.unpack = (Words.join32 a b c d,u.advance 4) ∧ (u.advance 4).rest = tail := by
  obtain ⟨one,left⟩ := rawbyte_rest left
  obtain ⟨two,left⟩ := rawbyte_rest left
  obtain ⟨three,left⟩ := rawbyte_rest left
  obtain ⟨four,left⟩ := rawbyte_rest left
  refine ⟨?_,left⟩
  simp only [unpack,one,two,three,four,Words.signed_masked,Words.join32]
  rfl

theorem unpack_be32 (left : u.rest = Words.be32 x ++ tail) :
    u.unpack = (x,u.advance 4) ∧ (u.advance 4).rest = tail := by
  obtain ⟨value,after⟩ := unpack_rest left
  exact ⟨by rw [value,Words.join32_bytes],after⟩

theorem unpack16_rest (left : u.rest = Words.byte16 x 8 :: Words.byte16 x 0 :: tail) :
    u.unpack16 = (x,u.advance 2) ∧ (u.advance 2).rest = tail := by
  obtain ⟨one,left⟩ := rawbyte_rest left
  obtain ⟨two,left⟩ := rawbyte_rest left
  refine ⟨?_,left⟩
  simp only [unpack16,one,two,Words.signed_masked,Words.join16_wide,Words.join16_bytes]
  rfl

theorem rawbytes_rest (left : u.rest = s ++ tail) (nonempty : u.ind ≤ u.buf.length)
    (small : u.buf.length < 2^32) (size : n.toNat = s.length) :
    u.rawbytes n = (s,u.advance s.length) ∧ (u.advance s.length).rest = tail := by
  have lengths := congrArg List.length left
  simp only [rest,List.length_drop,List.length_append] at lengths
  have sum : (u.ind + n.toNat) % 2^32 = u.ind + n.toNat := Nat.mod_eq_of_lt (by omega)
  have inside : ¬ (u.ind + n.toNat) % 2^32 > u.buf.length := by
    rw [sum]; omega
  have taken : (u.buf.drop u.ind).take n.toNat = s := by
    rw [show u.buf.drop u.ind = s ++ tail from left,size]; simp
  refine ⟨by rw [rawbytes,if_neg inside,taken,sum,size]; rfl,?_⟩
  unfold rest advance
  rw [← List.drop_drop,show u.buf.drop u.ind = s ++ tail from left]
  simp

theorem get_encode (v : Val) (left : u.rest = v.encode ++ tail) (good : u.ok = true)
    (inside : u.ind ≤ u.buf.length) (small : u.buf.length < 2^32) :
    u.get v.ty = (v,u.advance v.encode.length) ∧ (u.advance v.encode.length).rest = tail := by
  cases v with
  | uchar x =>
    obtain ⟨read,after⟩ := rawbyte_rest left
    exact ⟨by simp [get,Val.ty,Val.encode,read,Words.signed_low],after⟩
  | char x =>
    obtain ⟨read,after⟩ := rawbyte_rest left
    refine ⟨?_,after⟩
    simp only [get,Val.ty,read]
    rw [Words.signed_low,Int8.toInt8_toUInt8]
    rfl
  | ushort x =>
    obtain ⟨read,after⟩ := unpack16_rest left
    exact ⟨by simp [get,Val.ty,Val.encode,read],after⟩
  | short x =>
    obtain ⟨read,after⟩ := unpack16_rest left
    exact ⟨by simp [get,Val.ty,Val.encode,read],after⟩
  | uint x =>
    obtain ⟨read,after⟩ := unpack_be32 left
    exact ⟨by simp [get,Val.ty,Val.encode,read],after⟩
  | int x =>
    obtain ⟨read,after⟩ := unpack_be32 left
    exact ⟨by simp [get,Val.ty,Val.encode,read],after⟩
  | ulonglong x =>
    rw [Val.encode,List.append_assoc] at left
    obtain ⟨high,middle⟩ := unpack_be32 left
    obtain ⟨low,after⟩ := unpack_be32 middle
    refine ⟨?_,after⟩
    simp only [get,Val.ty,Val.encode,high,low,Words.join64_words]
    rfl
  | string s =>
    rw [Val.encode,List.append_assoc] at left
    obtain ⟨read,middle⟩ := unpack_be32 left
    have lengths := congrArg List.length left
    simp only [rest,List.length_drop,List.length_append,Words.be32_length] at lengths
    have size : (UInt32.ofNat s.length).toNat = s.length := by
      rw [UInt32.toNat_ofNat']; exact Nat.mod_eq_of_lt (by omega)
    obtain ⟨text,after⟩ := rawbytes_rest middle (by simp only [advance]; omega) small size
    have length : (Val.string s).encode.length = 4 + s.length := by simp [Val.encode]
    have joined : (u.advance 4).advance s.length = u.advance (4+s.length) := by
      simp [advance,Nat.add_assoc]
    rw [length]
    refine ⟨?_,joined ▸ after⟩
    simp only [get,Val.ty,read,text,joined]
    simp [advance,good]

theorem gets_encodes (values : List Val) (left : u.rest = encodes values ++ tail) (good : u.ok = true)
    (inside : u.ind ≤ u.buf.length) (small : u.buf.length < 2^32) :
    u.gets (values.map Val.ty) = (values,u.advance (encodes values).length) ∧
      (u.advance (encodes values).length).rest = tail := by
  induction values generalizing u with
  | nil => exact ⟨by simp [gets,encodes,advance],by simpa [encodes,advance] using left⟩
  | cons v others ih =>
    have unfolded : encodes (v :: others) = v.encode ++ encodes others := by simp [encodes]
    rw [unfolded,List.append_assoc] at left
    obtain ⟨first,middle⟩ := get_encode v left good inside small
    have lengths := congrArg List.length left
    simp only [rest,List.length_drop,List.length_append] at lengths
    obtain ⟨more,after⟩ := @ih (u.advance v.encode.length) middle good
      (by simp only [advance]; omega) small
    have joined : (u.advance v.encode.length).advance (encodes others).length =
        u.advance (encodes (v :: others)).length := by
      simp [advance,unfolded,Nat.add_assoc]
    refine ⟨?_,joined ▸ after⟩
    simp only [List.map_cons,gets,first,more,joined]

theorem get_ty (u : Unmarshall) (ty : Ty) : (u.get ty).1.ty = ty := by
  cases ty with
  | string =>
    simp only [get]
    split <;> rfl
  | uchar | char | ushort | short | uint | int | ulonglong => rfl

theorem okdone_advance (good : u.ok = true) (inside : u.ind ≤ u.buf.length) :
    (u.advance u.rest.length).okdone = true := by
  simp only [okdone,advance,rest,List.length_drop,good,Bool.true_and,beq_iff_eq]
  omega

theorem unpackReqHeader_pdu (size body : List UInt8) (four : size.length = 4) (h : ReqHeader) :
    (ofPdu (size ++ h.encode ++ body)).unpackReqHeader = (h,⟨size ++ h.encode ++ body,rpcHeaderSz,true⟩) := by
  let start : Unmarshall := {ofPdu (size ++ h.encode ++ body) with ind:=rpcSzSize}
  have left : start.rest = Words.be32 h.xid ++ (Words.be32 h.proc ++ (Words.be32 h.cltNonce ++
      (Words.be32 h.srvNonce ++ (Words.be32 h.xidRep ++ body)))) := by
    simp only [start,rest,ofPdu,rpcSzSize,ReqHeader.encode,List.append_assoc]
    exact List.drop_left' four
  obtain ⟨one,left⟩ := unpack_be32 left
  obtain ⟨two,left⟩ := unpack_be32 left
  obtain ⟨three,left⟩ := unpack_be32 left
  obtain ⟨four,left⟩ := unpack_be32 left
  obtain ⟨five,_⟩ := unpack_be32 left
  simp only [unpackReqHeader]
  rw [show ({ofPdu (size ++ h.encode ++ body) with ind:=rpcSzSize} : Unmarshall) = start from rfl]
  simp only [one,two,three,four,five]
  rfl

theorem unpackReplyHeader_pdu (size body : List UInt8) (four : size.length = 4) (h : ReplyHeader) :
    (ofPdu (size ++ h.encode ++ body)).unpackReplyHeader = (h,⟨size ++ h.encode ++ body,rpcHeaderSz,true⟩) := by
  let start : Unmarshall := {ofPdu (size ++ h.encode ++ body) with ind:=rpcSzSize}
  have left : start.rest = Words.be32 h.xid ++ (Words.be32 h.ret.toUInt32 ++ body) := by
    simp only [start,rest,ofPdu,rpcSzSize,ReplyHeader.encode,List.append_assoc]
    exact List.drop_left' four
  obtain ⟨one,left⟩ := unpack_be32 left
  obtain ⟨two,_⟩ := unpack_be32 left
  simp only [unpackReplyHeader]
  rw [show ({ofPdu (size ++ h.encode ++ body) with ind:=rpcSzSize} : Unmarshall) = start from rfl]
  simp only [one,two]
  rfl

-- From here on headers are known by the two layouts only.
attribute [irreducible] unpackReqHeader unpackReplyHeader

end Unmarshall

def maxPdu : Nat := 10 <<< 20

-- What connection::writepdu puts on the wire for a buffer.
def frame (b : List UInt8) : List UInt8 := Words.be32 (UInt32.ofNat b.length) ++ b.drop 4

theorem frame_length (room : 4 ≤ b.length) : (frame b).length = b.length := by
  simp only [frame,List.length_append,Words.be32_length,List.length_drop]
  omega

end YfsLab
