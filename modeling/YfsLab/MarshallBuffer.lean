import YfsLab.Marshall

namespace YfsLab.MarshallBuffer

variable {junk : Nat → UInt8} {m : Marshall} {p : List UInt8} {size : Nat}

-- The memory a marshall object owns, and its two ints. A store outside of the
-- memory and an int that overflows are undefined in the source, `none` here.
structure Buffer where
  buf : List UInt8
  capa : Nat
  ind : Nat
  deriving DecidableEq, Repr

def int (x : Nat) : Option Nat := if x < 2^31 then some x else none

theorem int_some (bounded : size < 2^31) : int size = some size := if_pos bounded
theorem int_none (overflow : 2^31 ≤ size) : int size = none := if_neg (Nat.not_lt.mpr overflow)

-- realloc keeps what was there; a byte of new memory is arbitrary, and as a
-- buffer only grows it is new once. Neither malloc nor realloc fails.
def realloc (junk : Nat → UInt8) (buf : List UInt8) (size : Nat) : List UInt8 :=
  (List.range size).map fun i => buf.getD i (junk i)

def new (junk : Nat → UInt8) : Buffer := {buf:=realloc junk [] defaultRpcSz,capa:=defaultRpcSz,ind:=rpcHeaderSz}

def grow (junk : Nat → UInt8) (b : Buffer) (capa : Nat) : Option Buffer :=
  (int capa).map fun capa => {b with buf:=realloc junk b.buf capa,capa}

-- _buf[_ind++] = x and memcpy.
def store (b : Buffer) (p : List UInt8) : Option Buffer :=
  if b.ind+p.length ≤ b.buf.length then
    (int (b.ind+p.length)).map fun ind =>
      {b with buf:=b.buf.take b.ind ++ p ++ b.buf.drop (b.ind+p.length),ind}
  else none

def rawbyte (junk : Nat → UInt8) (b : Buffer) (x : UInt8) : Option Buffer :=
  (if b.ind ≥ b.capa then grow junk b (b.capa*2) else some b).bind (store · [x])

def rawbytes (junk : Nat → UInt8) (b : Buffer) (p : List UInt8) : Option Buffer :=
  (int (b.ind+p.length)).bind fun needed =>
    (if needed > b.capa then grow junk b (if b.capa > p.length then 2*b.capa else b.capa+p.length) else some b).bind
      (store · p)

def pack (junk : Nat → UInt8) (b : Buffer) (x : UInt32) : Option Buffer := do
  let b ← rawbyte junk b (Words.byte32 x 24)
  let b ← rawbyte junk b (Words.byte32 x 16)
  let b ← rawbyte junk b (Words.byte32 x 8)
  rawbyte junk b (Words.byte32 x 0)

def packReqHeader (junk : Nat → UInt8) (b : Buffer) (h : ReqHeader) : Option Buffer := do
  let saved := b.ind
  let b ← pack junk {b with ind:=rpcSzSize} h.xid
  let b ← pack junk b h.proc
  let b ← pack junk b h.cltNonce
  let b ← pack junk b h.srvNonce
  let b ← pack junk b h.xidRep
  some {b with ind:=saved}

def packReplyHeader (junk : Nat → UInt8) (b : Buffer) (h : ReplyHeader) : Option Buffer := do
  let saved := b.ind
  let b ← pack junk {b with ind:=rpcSzSize} h.xid
  let b ← pack junk b h.ret.toUInt32
  some {b with ind:=saved}

inductive Op where
  | rawbyte (x : UInt8)
  | rawbytes (p : List UInt8)
  | packReqHeader (h : ReqHeader)
  | packReplyHeader (h : ReplyHeader)
  deriving DecidableEq, Repr

def Op.run (junk : Nat → UInt8) (b : Buffer) : Op → Option Buffer
  | .rawbyte x => MarshallBuffer.rawbyte junk b x
  | .rawbytes p => MarshallBuffer.rawbytes junk b p
  | .packReqHeader h => MarshallBuffer.packReqHeader junk b h
  | .packReplyHeader h => MarshallBuffer.packReplyHeader junk b h

def runs (junk : Nat → UInt8) (ops : List Op) (b : Buffer) : Option Buffer := ops.foldlM (Op.run junk) b

def Op.appended : Op → List UInt8
  | .rawbyte x => [x]
  | .rawbytes p => p
  | .packReqHeader _ | .packReplyHeader _ => []

def appended (ops : List Op) : List UInt8 := ops.flatMap Op.appended

-- An operation on the marshall of the other modules, whose memory has no end.
def Op.apply (m : Marshall) : Op → Marshall
  | .rawbyte x => m.rawbyte x
  | .rawbytes p => m.rawbytes p
  | .packReqHeader h => m.packReqHeader h
  | .packReplyHeader h => m.packReplyHeader h

def of (m : Marshall) : Buffer := {buf:=(List.range m.capa).map m.buf,capa:=m.capa,ind:=m.ind}

@[simp] theorem of_ind (m : Marshall) : (of m).ind = m.ind := rfl
@[simp] theorem of_capa (m : Marshall) : (of m).capa = m.capa := rfl
@[simp] theorem of_buf_length (m : Marshall) : (of m).buf.length = m.capa := by simp [of]

theorem of_seek (m : Marshall) (ind : Nat) : {of m with ind} = of {m with ind} := rfl

theorem of_str (fits : m.ind ≤ m.capa) : (of m).buf.take m.ind = m.str := by
  simp only [of,Marshall.str,← List.map_take,List.take_range,Nat.min_eq_left fits]

def Unused (junk : Nat → UInt8) (m : Marshall) : Prop := ∀ i, m.capa ≤ i → m.buf i = junk i

theorem of_new (junk : Nat → UInt8) : of (.new junk) = new junk := by
  simp [of,new,Marshall.new,realloc]

theorem grow_of (unused : Unused junk m) (bounded : capa < 2^31) :
    grow junk (of m) capa = some (of {m with capa}) := by
  have kept : ∀ i < capa, ((List.range m.capa).map m.buf).getD i (junk i) = m.buf i := fun i _ => by
    by_cases inside : i < m.capa
    · simp [List.getD_eq_getElem?_getD,inside]
    · simp [List.getD_eq_getElem?_getD,inside,unused i (Nat.not_lt.mp inside)]
  have same : realloc junk (of m).buf capa = (List.range capa).map m.buf :=
    List.map_congr_left fun i member => kept i (List.mem_range.mp member)
  simp only [grow,int_some bounded,Option.map_some,same]
  rfl

theorem store_of (room : m.ind+p.length ≤ m.capa) (bounded : m.ind+p.length < 2^31) :
    store (of m) p = some (of {m with buf:=(m.rawbytes p).buf,ind:=m.ind+p.length}) := by
  have same : (of m).buf.take m.ind ++ p ++ (of m).buf.drop (m.ind+p.length) =
      (List.range m.capa).map (m.rawbytes p).buf := by
    apply List.ext_getElem
    · simp only [List.length_append,List.length_take,List.length_drop,List.length_map,List.length_range,of_buf_length]
      omega
    · intro i left right
      have inside : i < m.capa := by simpa using right
      have front := of_str (m:=m) (by omega)
      by_cases new : i < m.ind+p.length
      · have written : i < (m.rawbytes p).str.length := by simpa [Marshall.rawbytes] using new
        rw [List.getElem_append_left (by simpa [front] using new)]
        have here : (m.rawbytes p).str[i] = (m.rawbytes p).buf i := by simp [Marshall.str]
        simp only [front,← Marshall.str_rawbytes,here,List.getElem_map,List.getElem_range]
      · have length : ((of m).buf.take m.ind ++ p).length = m.ind+p.length := by simp [front]
        rw [List.getElem_append_right (by rw [length]; exact Nat.not_lt.mp new)]
        have shifted : m.ind+p.length + (i - (m.ind+p.length)) = i := by omega
        simp only [length,List.getElem_drop,shifted]
        have past : ¬ i - m.ind < p.length := by omega
        simp [of,Marshall.rawbytes,past]
  simp only [store,of_ind,of_buf_length,if_pos room,int_some bounded,Option.map_some,same]
  rfl

theorem rawbyte_buf (m : Marshall) (x : UInt8) : (m.rawbytes [x]).buf = (m.rawbyte x).buf := by
  funext i
  simp only [Marshall.rawbytes,Marshall.rawbyte]
  by_cases here : i = m.ind
  · simp [here]
  · by_cases after : m.ind ≤ i
    · have past : i - m.ind = (i - m.ind - 1) + 1 := by omega
      rw [if_pos after,if_neg here,past]
      simp
    · rw [if_neg after,if_neg here]

-- Where growth is sufficient the two agree: the real object does not fail and
-- shows what the unlimited one does.
theorem rawbyte_of (unused : Unused junk m) (fits : m.ind ≤ m.capa) (positive : 0 < m.capa)
    (small : m.ind+1 < 2^31) (bounded : (m.rawbyte x).capa < 2^31) :
    rawbyte junk (of m) x = some (of (m.rawbyte x)) := by
  have grown : (if (of m).ind ≥ (of m).capa then grow junk (of m) ((of m).capa*2) else some (of m)) =
      some (of {m with capa:=(m.rawbyte x).capa}) := by
    by_cases full : m.ind ≥ m.capa
    · have doubled : (m.rawbyte x).capa = m.capa*2 := if_pos full
      rw [doubled] at bounded ⊢
      exact (if_pos full).trans (grow_of unused bounded)
    · have same : (m.rawbyte x).capa = m.capa := if_neg full
      rw [same]
      exact if_neg full
  have room : m.ind+1 ≤ (m.rawbyte x).capa := by
    simp only [Marshall.rawbyte]
    split <;> omega
  rw [rawbyte,grown,Option.bind_some,store_of (m:={m with capa:=(m.rawbyte x).capa}) (p:=[x]) room small]
  have same : (Marshall.rawbytes {m with capa:=(m.rawbyte x).capa} [x]).buf = (m.rawbyte x).buf := rawbyte_buf m x
  rw [same]
  rfl

theorem rawbytes_of (unused : Unused junk m) (small : m.ind+p.length < 2^31) (bounded : (m.rawbytes p).capa < 2^31)
    (room : m.ind+p.length ≤ (m.rawbytes p).capa) : rawbytes junk (of m) p = some (of (m.rawbytes p)) := by
  have grown : (if m.ind+p.length > (of m).capa then
      grow junk (of m) (if (of m).capa > p.length then 2*(of m).capa else (of m).capa+p.length) else some (of m)) =
      some (of {m with capa:=(m.rawbytes p).capa}) := by
    by_cases full : m.ind+p.length > m.capa
    · have larger : (m.rawbytes p).capa = if m.capa > p.length then 2*m.capa else m.capa+p.length := if_pos full
      rw [larger] at bounded ⊢
      exact (if_pos full).trans (grow_of unused bounded)
    · have same : (m.rawbytes p).capa = m.capa := if_neg full
      rw [same]
      exact if_neg full
  rw [rawbytes,of_ind,int_some small,Option.bind_some,grown,Option.bind_some,
    store_of (m:={m with capa:=(m.rawbytes p).capa}) room small]
  rfl

-- Room for `more` bytes below _capa: they are written without growing.
structure Room (junk : Nat → UInt8) (m : Marshall) (more : Nat) : Prop where
  unused : Unused junk m
  bounded : m.capa < 2^31
  below : m.ind+more ≤ m.capa

theorem rawbyte_room (room : Room junk m (more+1)) :
    rawbyte junk (of m) x = some (of (m.rawbyte x)) ∧ Room junk (m.rawbyte x) more ∧ (m.rawbyte x).capa = m.capa := by
  obtain ⟨unused,bounded,below⟩ := room
  have same : (m.rawbyte x).capa = m.capa := if_neg (by omega)
  refine ⟨rawbyte_of unused (by omega) (by omega) (by omega) (by omega),⟨fun i outside => ?_,by omega,?_⟩,same⟩
  · rw [same] at outside
    have other : i ≠ m.ind := by omega
    simp [Marshall.rawbyte,other,unused i outside]
  · rw [same]
    simp only [Marshall.rawbyte]
    omega

theorem pack_room (room : Room junk m (more+4)) :
    pack junk (of m) x = some (of (m.pack x)) ∧ Room junk (m.pack x) more ∧ (m.pack x).capa = m.capa := by
  obtain ⟨one,room,c1⟩ := rawbyte_room (x:=Words.byte32 x 24) room
  obtain ⟨two,room,c2⟩ := rawbyte_room (x:=Words.byte32 x 16) room
  obtain ⟨three,room,c3⟩ := rawbyte_room (x:=Words.byte32 x 8) room
  obtain ⟨four,room,c4⟩ := rawbyte_room (x:=Words.byte32 x 0) room
  refine ⟨?_,room,by simp only [Marshall.pack,c4,c3,c2,c1]⟩
  simp only [pack,one,two,three,four,Option.bind_eq_bind,Option.bind_some]
  rfl

theorem Room.restored (room : Room junk m more) (saved : Nat) : Unused junk {m with ind:=saved} := room.unused

-- A header is packed below the bytes appended and leaves them alone.
structure Beside (junk : Nat → UInt8) (m packed : Marshall) : Prop where
  unused : Unused junk packed
  capa : packed.capa = m.capa
  ind : packed.ind = m.ind
  kept : ∀ i, rpcHeaderSz ≤ i → packed.buf i = m.buf i

theorem header_room (unused : Unused junk m) (bounded : m.capa < 2^31) (header : rpcHeaderSz ≤ m.capa) :
    Room junk {m with ind:=rpcSzSize} 20 :=
  ⟨unused,bounded,header⟩

theorem packReqHeader_of (unused : Unused junk m) (bounded : m.capa < 2^31) (header : rpcHeaderSz ≤ m.capa) (h : ReqHeader) :
    packReqHeader junk (of m) h = some (of (m.packReqHeader h)) ∧ Beside junk m (m.packReqHeader h) := by
  obtain ⟨one,room,c1⟩ := pack_room (x:=h.xid) (header_room unused bounded header)
  obtain ⟨two,room,c2⟩ := pack_room (x:=h.proc) room
  obtain ⟨three,room,c3⟩ := pack_room (x:=h.cltNonce) room
  obtain ⟨four,room,c4⟩ := pack_room (x:=h.srvNonce) room
  obtain ⟨five,room,c5⟩ := pack_room (x:=h.xidRep) room
  refine ⟨?_,room.restored m.ind,?_,rfl,fun i after => ?_⟩
  · simp only [packReqHeader,of_seek,one,two,three,four,five,Option.bind_eq_bind,Option.bind_some]
    rfl
  · simp only [Marshall.packReqHeader,c5,c4,c3,c2,c1]
  · simp only [Marshall.packReqHeader]
    unfold rpcHeaderSz at after
    iterate 5 rw [Marshall.pack_untouched _ _ (by simp [rpcSzSize]; omega)]

theorem packReplyHeader_of (unused : Unused junk m) (bounded : m.capa < 2^31) (header : rpcHeaderSz ≤ m.capa)
    (h : ReplyHeader) :
    packReplyHeader junk (of m) h = some (of (m.packReplyHeader h)) ∧ Beside junk m (m.packReplyHeader h) := by
  obtain ⟨one,room,c1⟩ := pack_room (x:=h.xid) (header_room unused bounded header)
  obtain ⟨two,room,c2⟩ := pack_room (x:=h.ret.toUInt32) room
  refine ⟨?_,room.restored m.ind,?_,rfl,fun i after => ?_⟩
  · simp only [packReplyHeader,of_seek,one,two,Option.bind_eq_bind,Option.bind_some]
    rfl
  · simp only [Marshall.packReplyHeader,c2,c1]
  · simp only [Marshall.packReplyHeader]
    unfold rpcHeaderSz at after
    iterate 2 rw [Marshall.pack_untouched _ _ (by simp [rpcSzSize]; omega)]

def body (m : Marshall) : List UInt8 := m.str.drop rpcHeaderSz

theorem body_append {m n : Marshall} (header : rpcHeaderSz ≤ m.ind) (appended : n.str = m.str ++ p) :
    body n = body m ++ p := by
  rw [body,appended,List.drop_append_of_le_length (by simpa using header)]
  rfl

theorem body_beside (beside : Beside junk m n) : body n = body m := by
  have shape : ∀ m : Marshall, body m = (List.range' rpcHeaderSz (m.ind-rpcHeaderSz)).map m.buf := fun m => by
    simp [body,Marshall.str,← List.map_drop,List.range_eq_range',List.drop_range']
  rw [shape,shape,beside.ind]
  exact List.map_congr_left fun i member => beside.kept i (List.mem_range'_1.mp member).1

-- After each append _capa is the size of a fresh buffer or less than twice what
-- is in use: that is how far the two growth rules go.
structure Sufficient (junk : Nat → UInt8) (m : Marshall) : Prop where
  unused : Unused junk m
  header : rpcHeaderSz ≤ m.ind
  fits : m.ind ≤ m.capa
  least : defaultRpcSz ≤ m.capa
  most : m.capa ≤ defaultRpcSz ∨ m.capa+2 ≤ 2*m.ind

theorem new_sufficient (junk : Nat → UInt8) : Sufficient junk (.new junk) :=
  ⟨fun _ _ => rfl,Nat.le_refl _,(by decide : rpcHeaderSz ≤ defaultRpcSz),Nat.le_refl _,.inl (Nat.le_refl _)⟩

theorem Sufficient.bounded (sufficient : Sufficient junk m) (small : m.ind ≤ 2^30) : m.capa < 2^31 := by
  have most := sufficient.most
  unfold defaultRpcSz at most
  omega

theorem grown_sufficient (sufficient : Sufficient junk m) (further : m.ind ≤ n.ind) (fits : n.ind ≤ n.capa)
    (larger : m.capa ≤ n.capa) (most : n.capa = m.capa ∨ n.capa+2 ≤ 2*n.ind) (kept : ∀ i, n.ind ≤ i → n.buf i = m.buf i) :
    Sufficient junk n := by
  refine ⟨fun i outside => ?_,sufficient.header.trans further,fits,sufficient.least.trans larger,?_⟩
  · rw [kept i (fits.trans outside)]
    exact sufficient.unused i (larger.trans outside)
  · rcases most with same | tight
    · have before := sufficient.most
      omega
    · exact .inr tight

theorem rawbyte_sufficient (sufficient : Sufficient junk m) (x : UInt8) : Sufficient junk (m.rawbyte x) := by
  have capa : (m.rawbyte x).capa = if m.ind ≥ m.capa then m.capa*2 else m.capa := rfl
  have ind : (m.rawbyte x).ind = m.ind+1 := rfl
  have fits := sufficient.fits
  have header : 24 ≤ m.ind := sufficient.header
  refine grown_sufficient sufficient ?_ ?_ ?_ ?_ fun i after => ?_
  · omega
  · split at capa <;> omega
  · split at capa <;> omega
  · split at capa <;> omega
  · have other : i ≠ m.ind := by omega
    simp only [Marshall.rawbyte,if_neg other]

-- Doubling is chosen exactly if n is below _capa, and then twice _capa is
-- enough as _ind is not above it.
theorem rawbytes_sufficient (sufficient : Sufficient junk m) (p : List UInt8) : Sufficient junk (m.rawbytes p) := by
  have capa : (m.rawbytes p).capa =
      if m.ind+p.length > m.capa then (if m.capa > p.length then 2*m.capa else m.capa+p.length) else m.capa := rfl
  have ind : (m.rawbytes p).ind = m.ind+p.length := rfl
  have fits := sufficient.fits
  have header : 24 ≤ m.ind := sufficient.header
  have grown : (m.rawbytes p).capa = m.capa ∧ m.ind+p.length ≤ m.capa ∨
      m.capa < m.ind+p.length ∧ p.length < m.capa ∧ (m.rawbytes p).capa = 2*m.capa ∨
      m.capa < m.ind+p.length ∧ m.capa ≤ p.length ∧ (m.rawbytes p).capa = m.capa+p.length := by
    split at capa
    · split at capa <;> omega
    · omega
  refine grown_sufficient sufficient ?_ ?_ ?_ ?_ fun i after => ?_
  · omega
  · omega
  · omega
  · omega
  · have past : p.length ≤ i-m.ind := by omega
    simp [Marshall.rawbytes,List.getD_eq_getElem?_getD,List.getElem?_eq_none past]

theorem beside_sufficient (sufficient : Sufficient junk m) (beside : Beside junk m n) : Sufficient junk n := by
  obtain ⟨unused,header,fits,least,most⟩ := sufficient
  refine ⟨beside.unused,?_,?_,?_,?_⟩
  all_goals simpa only [beside.capa,beside.ind]

theorem op_sufficient (sufficient : Sufficient junk m) (op : Op) (small : m.ind+op.appended.length ≤ 2^30) :
    op.run junk (of m) = some (of (op.apply m)) ∧ Sufficient junk (op.apply m) ∧
      (op.apply m).ind = m.ind+op.appended.length ∧ body (op.apply m) = body m ++ op.appended := by
  have header := sufficient.header
  have bounded := sufficient.bounded (by omega)
  have least := sufficient.least
  have space : rpcHeaderSz ≤ m.capa := header.trans sufficient.fits
  cases op with
  | rawbyte x =>
    simp only [Op.appended,List.length_singleton] at small
    have after := rawbyte_sufficient sufficient x
    have written := rawbyte_of (x:=x) sufficient.unused sufficient.fits (by unfold defaultRpcSz at least; omega) (by omega)
      (after.bounded small)
    exact ⟨written,after,rfl,body_append header (Marshall.str_rawbyte m x)⟩
  | rawbytes p =>
    simp only [Op.appended] at small
    have after := rawbytes_sufficient sufficient p
    have written := rawbytes_of sufficient.unused (by omega) (after.bounded small) after.fits
    exact ⟨written,after,rfl,body_append header (Marshall.str_rawbytes m p)⟩
  | packReqHeader h =>
    obtain ⟨written,beside⟩ := packReqHeader_of sufficient.unused bounded space h
    exact ⟨written,beside_sufficient sufficient beside,rfl,by simp [Op.appended,Op.apply,body_beside beside]⟩
  | packReplyHeader h =>
    obtain ⟨written,beside⟩ := packReplyHeader_of sufficient.unused bounded space h
    exact ⟨written,beside_sufficient sufficient beside,rfl,by simp [Op.appended,Op.apply,body_beside beside]⟩

theorem runs_sufficient (ops : List Op) (sufficient : Sufficient junk m) (small : m.ind+(appended ops).length ≤ 2^30) :
    runs junk ops (of m) = some (of (ops.foldl Op.apply m)) ∧ Sufficient junk (ops.foldl Op.apply m) ∧
      (ops.foldl Op.apply m).ind = m.ind+(appended ops).length ∧ body (ops.foldl Op.apply m) = body m ++ appended ops := by
  induction ops generalizing m with
  | nil => exact ⟨rfl,sufficient,rfl,by simp [appended]⟩
  | cons op rest ih =>
    have whole : appended (op :: rest) = op.appended ++ appended rest := rfl
    rw [whole,List.length_append] at small
    obtain ⟨written,after,ind,content⟩ := op_sufficient sufficient op (by omega)
    obtain ⟨ran,final,last,contents⟩ := ih after (by omega)
    refine ⟨?_,final,?_,?_⟩
    · rw [List.foldl_cons]
      simpa only [runs,List.foldlM_cons,written,Option.bind_eq_bind,Option.bind_some] using ran
    · rw [List.foldl_cons,last,ind,whole,List.length_append]
      omega
    · rw [List.foldl_cons,contents,content,whole,List.append_assoc]

theorem growth_sufficient (junk : Nat → UInt8) (ops : List Op) (bounded : rpcHeaderSz+(appended ops).length ≤ 2^30)
    (before : front <+: ops) : ∃ b, runs junk front (new junk) = some b ∧ b.ind = rpcHeaderSz+(appended front).length ∧
      b.ind ≤ b.capa ∧ b.capa < 2^31 ∧ b.buf.length = b.capa ∧ (b.buf.take b.ind).drop rpcHeaderSz = appended front := by
  obtain ⟨rest,rfl⟩ := before
  have whole : appended (front ++ rest) = appended front ++ appended rest := List.flatMap_append
  rw [whole,List.length_append] at bounded
  have small : (Marshall.new junk).ind+(appended front).length ≤ 2^30 := by
    have start : (Marshall.new junk).ind = rpcHeaderSz := rfl
    omega
  obtain ⟨ran,sufficient,ind,content⟩ := runs_sufficient front (new_sufficient junk) small
  rw [of_new] at ran
  have fresh : body (.new junk) = [] := List.drop_eq_nil_of_le (by simp [Marshall.new])
  rw [fresh,List.nil_append] at content
  refine ⟨_,ran,ind,sufficient.fits,sufficient.bounded (by omega),of_buf_length _,?_⟩
  rw [of_ind,of_str sufficient.fits]
  exact content

theorem header_between : ∃ b, runs (fun _ => 0) [.rawbytes [1,2],.packReplyHeader ⟨5,0⟩,.rawbyte 3] (new fun _ => 0) = some b ∧
    b.ind ≤ b.capa ∧ (b.buf.take b.ind).drop rpcHeaderSz = [1,2,3] := by
  obtain ⟨b,ran,_,fits,_,_,content⟩ := growth_sufficient (fun _ => 0) [.rawbytes [1,2],.packReplyHeader ⟨5,0⟩,.rawbyte 3]
    (by decide) (List.prefix_rfl)
  exact ⟨b,ran,fits,content⟩

theorem doubled_overflows (full : 2*m.capa ≥ 2^31) (past : m.ind+p.length > m.capa) (short : m.capa > p.length) :
    rawbytes junk (of m) p = none := by
  unfold rawbytes
  cases needed : int ((of m).ind+p.length) with
  | none => rfl
  | some total =>
    cases Option.some.inj (Option.ite_none_right_eq_some.mp needed).2
    have grows : (of m).ind+p.length > (of m).capa := past
    have doubles : (if (of m).capa > p.length then 2*(of m).capa else (of m).capa+p.length) = 2*m.capa := if_pos short
    rw [Option.bind_some,if_pos grows,doubles,grow,int_none full]
    rfl

theorem two_appends_overflow (first : p.length = 2^30-1024) (second : q.length = 1001) :
    runs junk [.rawbytes p,.rawbytes q] (new junk) = none := by
  have small : (Marshall.new junk).ind+(Op.rawbytes p).appended.length ≤ 2^30 := by
    simp only [Marshall.new,rpcHeaderSz,Op.appended]
    omega
  have written := (op_sufficient (new_sufficient junk) (.rawbytes p) small).1
  rw [of_new] at written
  have capa : ((Marshall.new junk).rawbytes p).capa = 2^30 := by
    have rule : ((Marshall.new junk).rawbytes p).capa =
        if 24+p.length > 1024 then (if 1024 > p.length then 2*1024 else 1024+p.length) else 1024 := rfl
    rw [rule,if_pos (by omega),if_neg (by omega)]
    omega
  have ind : ((Marshall.new junk).rawbytes p).ind = 2^30-1000 := by
    simp only [Marshall.rawbytes,Marshall.new,rpcHeaderSz]
    omega
  have overflow : (Op.rawbytes q).run junk (of ((Marshall.new junk).rawbytes p)) = none :=
    doubled_overflows (by omega) (by omega) (by omega)
  simp only [runs,List.foldlM_cons,written,Option.bind_eq_bind,Option.bind_some,Op.apply,overflow,Option.bind_none]

theorem header_overflows : ¬ ∀ (junk : Nat → UInt8) (ops : List Op), (appended ops).length < 2^30 →
    ∃ b, runs junk ops (new junk) = some b := by
  intro always
  have first : (List.replicate (2^30-1024) (0 : UInt8)).length = 2^30-1024 := List.length_replicate
  have second : (List.replicate 1001 (0 : UInt8)).length = 1001 := List.length_replicate
  obtain ⟨b,ran⟩ := always (fun _ => 0) [.rawbytes (List.replicate (2^30-1024) 0),.rawbytes (List.replicate 1001 0)] (by
    rw [appended,List.flatMap_cons,List.flatMap_cons,List.length_append,List.length_append,Op.appended,Op.appended,first,second]
    decide)
  rw [two_appends_overflow first second] at ran
  cases ran

end YfsLab.MarshallBuffer
