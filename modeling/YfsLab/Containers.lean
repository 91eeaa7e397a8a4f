import YfsLab.Lib.OrderedMap
import YfsLab.ExtentServer
import YfsLab.Marshall

namespace YfsLab

-- The types that operator<< and operator>> take beside those of rpc.cc: attr of
-- extent_protocol.h and the vector and map templates of marshall.h.
inductive Shape where
  | base (ty : Ty)
  | attr
  | vector (of : Shape)
  | map (key value : Shape)
  deriving DecidableEq, Repr

-- A type together with the operator< that std::map uses on it.
structure Kind where
  type : Type
  cmp : type → type → Ordering
  trans : Std.TransCmp cmp

instance (kind : Kind) : Std.TransCmp kind.cmp := kind.trans

-- Numbers by value, strings by their bytes as unsigned chars.
def Val.rank : Val → Int × List UInt8
  | .uchar x => (x.toNat,[])
  | .char x => (x.toInt,[])
  | .ushort x => (x.toNat,[])
  | .short x => (x.toInt,[])
  | .uint x => (x.toNat,[])
  | .int x => (x.toInt,[])
  | .ulonglong x => (x.toNat,[])
  | .string s => (0,s)

namespace Kind

-- std::pair and std::lexicographical_compare.
def pair (first second : Kind) : Kind where
  type := first.type × second.type
  cmp := compareLex (fun one two => first.cmp one.1 two.1) (fun one two => second.cmp one.2 two.2)
  trans :=
    have := OrderedMap.trans_comap first.trans (Prod.fst : first.type × second.type → first.type)
    have := OrderedMap.trans_comap second.trans (Prod.snd : first.type × second.type → second.type)
    inferInstance

def list (of : Kind) : Kind where
  type := List of.type
  cmp := List.compareLex of.cmp
  trans := inferInstance

def along {T : Type} (kind : Kind) (f : T → kind.type) : Kind where
  type := T
  cmp := fun one two => kind.cmp (f one) (f two)
  trans := OrderedMap.trans_comap kind.trans f

def int : Kind := ⟨Int,compare,inferInstance⟩
def byte : Kind := ⟨UInt8,compare,inferInstance⟩

end Kind

-- attr has no operator<, so it is no key of a map.
def Shape.kind : Shape → Kind
  | .base ty => (Kind.pair .int (.list .byte)).along fun v : {v : Val // v.ty = ty} => v.1.rank
  | .attr => ⟨Attr,fun _ _ => .eq,{eq_swap := rfl,isLE_trans := fun _ _ => rfl}⟩
  | .vector of => .list of.kind
  | .map key value =>
    (Kind.list (.pair key.kind value.kind)).along fun d : OrderedMap key.kind.cmp value.kind.type => d.entries

def Shape.Value (s : Shape) : Type := s.kind.type

-- The templates of marshall.h. A count is the low 32 bits of size().
section Templates
variable {T K V : Type} {cmp : K → K → Ordering}

def Marshall.vector (put : Marshall → T → Marshall) (m : Marshall) (v : List T) : Marshall :=
  v.foldl put (m.put (.uint (UInt32.ofNat v.length)))

def Marshall.map (putKey : Marshall → K → Marshall) (putValue : Marshall → V → Marshall) (m : Marshall)
    (d : OrderedMap cmp V) : Marshall :=
  d.entries.foldl (fun m entry => putValue (putKey m entry.1) entry.2) (m.put (.uint (UInt32.ofNat d.entries.length)))

-- The loops of operator>>: a vector is appended to and a map assigned to.
def Unmarshall.pushes (get : Unmarshall → T × Unmarshall) : Nat → Unmarshall → List T → List T × Unmarshall
  | 0,u,v => (v,u)
  | n+1,u,v =>
    let (z,u) := get u
    pushes get n u (v ++ [z])

def Unmarshall.assigns [Std.TransCmp cmp] (getKey : Unmarshall → K × Unmarshall) (getValue : Unmarshall → V × Unmarshall) :
    Nat → Unmarshall → OrderedMap cmp V → OrderedMap cmp V × Unmarshall
  | 0,u,d => (d,u)
  | n+1,u,d =>
    let (a,u) := getKey u
    let (b,u) := getValue u
    assigns getKey getValue n u (d.assign a b)

def Unmarshall.vector (get : Unmarshall → T × Unmarshall) (u : Unmarshall) (v : List T) : List T × Unmarshall :=
  let (n,u) := u.unpack
  pushes get n.toNat u v

def Unmarshall.map [Std.TransCmp cmp] (getKey : Unmarshall → K × Unmarshall) (getValue : Unmarshall → V × Unmarshall)
    (u : Unmarshall) : OrderedMap cmp V × Unmarshall :=
  let (n,u) := u.unpack
  assigns getKey getValue n.toNat u .empty

end Templates

section Written
variable {T K V : Type} {cmp : K → K → Ordering}

theorem Marshall.str_foldl {put : Marshall → T → Marshall} {encode : T → List UInt8}
    (each : ∀ m x, (put m x).str = m.str ++ encode x) (items : List T) (m : Marshall) :
    (items.foldl put m).str = m.str ++ items.flatMap encode := by
  induction items generalizing m with
  | nil => simp
  | cons item rest ih => rw [List.foldl_cons,ih,each,List.flatMap_cons,List.append_assoc]

theorem Marshall.str_vector {put : Marshall → T → Marshall} {encode : T → List UInt8}
    (each : ∀ m x, (put m x).str = m.str ++ encode x) (m : Marshall) (v : List T) :
    (Marshall.vector put m v).str = m.str ++ (Words.be32 (UInt32.ofNat v.length) ++ v.flatMap encode) := by
  rw [Marshall.vector,str_foldl each,str_put,List.append_assoc]
  rfl

theorem Marshall.str_map {putKey : Marshall → K → Marshall} {putValue : Marshall → V → Marshall}
    {encodeKey : K → List UInt8} {encodeValue : V → List UInt8}
    (key : ∀ m a, (putKey m a).str = m.str ++ encodeKey a) (value : ∀ m b, (putValue m b).str = m.str ++ encodeValue b)
    (m : Marshall) (d : OrderedMap cmp V) :
    (Marshall.map putKey putValue m d).str = m.str ++ (Words.be32 (UInt32.ofNat d.entries.length) ++
      d.entries.flatMap fun entry => encodeKey entry.1 ++ encodeValue entry.2) := by
  have each : ∀ m (entry : K × V), (putValue (putKey m entry.1) entry.2).str =
      m.str ++ (encodeKey entry.1 ++ encodeValue entry.2) := by
    intro m entry
    rw [value,key,List.append_assoc]
  rw [Marshall.map,str_foldl each,str_put,List.append_assoc]
  rfl

end Written

namespace Shape

-- operator<< and operator>>, the latter into fresh variables.
def put : (s : Shape) → Marshall → s.Value → Marshall
  | .base _ => fun m v => m.put v.1
  | .attr => fun m a => (((m.put (.uint a.atime)).put (.uint a.mtime)).put (.uint a.ctime)).put (.uint a.size)
  | .vector of => Marshall.vector of.put
  | .map key value => Marshall.map key.put value.put

def get : (s : Shape) → Unmarshall → s.Value × Unmarshall
  | .base ty => fun u => (⟨(u.get ty).1,u.get_ty ty⟩,(u.get ty).2)
  | .attr => fun u =>
    let (atime,u) := u.unpack
    let (mtime,u) := u.unpack
    let (ctime,u) := u.unpack
    let (size,u) := u.unpack
    (⟨atime,mtime,ctime,size⟩,u)
  | .vector of => fun u => u.vector of.get []
  | .map key value => fun u => u.map key.get value.get

def encode : (s : Shape) → s.Value → List UInt8
  | .base _ => fun v => v.1.encode
  | .attr => fun a => Words.be32 a.atime ++ (Words.be32 a.mtime ++ (Words.be32 a.ctime ++ Words.be32 a.size))
  | .vector of => fun v => Words.be32 (UInt32.ofNat (List.length v)) ++ List.flatMap of.encode v
  | .map key value => fun d =>
    Words.be32 (UInt32.ofNat (OrderedMap.entries d).length) ++
      (OrderedMap.entries d).flatMap fun entry => key.encode entry.1 ++ value.encode entry.2

theorem str_put (s : Shape) (m : Marshall) (x : s.Value) : (s.put m x).str = m.str ++ s.encode x := by
  induction s generalizing m with
  | base ty => exact m.str_put x.1
  | attr => simp [put,encode,Val.encode]
  | vector of ih => exact Marshall.str_vector ih m x
  | map key value ihKey ihValue => exact Marshall.str_map ihKey ihValue m x

end Shape

-- The reader stands before these bytes, and nothing has failed so far.
structure Unmarshall.At (u : Unmarshall) (left : List UInt8) : Prop where
  rest : u.rest = left
  good : u.ok = true
  inside : u.ind ≤ u.buf.length
  small : u.buf.length < 2^32

-- `get` reads `x` from these bytes wherever they stand, and nothing else.
def Unmarshall.Reads {T : Type} (get : Unmarshall → T × Unmarshall) (bytes : List UInt8) (x : T) : Prop :=
  ∀ u tail, u.At (bytes ++ tail) → get u = (x,u.advance bytes.length)

namespace Unmarshall
variable {T K V : Type} {cmp : K → K → Ordering} {u : Unmarshall}

theorem At.advance {front tail : List UInt8} (at_ : u.At (front ++ tail)) : (u.advance front.length).At tail := by
  have lengths := congrArg List.length at_.rest
  simp only [Unmarshall.rest,List.length_drop,List.length_append] at lengths
  have inside := at_.inside
  refine ⟨?_,at_.good,by simp only [Unmarshall.advance]; omega,at_.small⟩
  have left := at_.rest
  unfold Unmarshall.rest at left
  unfold Unmarshall.rest Unmarshall.advance
  rw [← List.drop_drop,left]
  simp

theorem At.length (at_ : u.At left) : left.length < 2^32 := by
  have lengths := congrArg List.length at_.rest
  simp only [Unmarshall.rest,List.length_drop] at lengths
  have := at_.small
  omega

theorem At.okdone (at_ : u.At left) : u.okdone = true ↔ left = [] := by
  have lengths := congrArg List.length at_.rest
  simp only [Unmarshall.rest,List.length_drop] at lengths
  have inside := at_.inside
  rw [Unmarshall.okdone,at_.good,Bool.true_and,beq_iff_eq,← List.length_eq_zero_iff]
  omega

theorem advance_advance (u : Unmarshall) (m n : Nat) : (u.advance m).advance n = u.advance (m+n) := by
  simp [advance,Nat.add_assoc]

theorem reads_val (v : Val) : Reads (fun u => u.get v.ty) v.encode v := by
  intro u tail at_
  exact (get_encode v at_.rest at_.good at_.inside at_.small).1

theorem reads_unpack (x : UInt32) : Reads unpack (Words.be32 x) x := by
  intro u tail at_
  exact (unpack_be32 at_.rest).1

theorem reads_pushes {get : Unmarshall → T × Unmarshall} {encode : T → List UInt8} (items : List T)
    (each : ∀ x ∈ items, Reads get (encode x) x) (front : List T) :
    Reads (fun u => pushes get items.length u front) (items.flatMap encode) (front ++ items) := by
  induction items generalizing front with
  | nil =>
    intro u tail at_
    simp [pushes,advance]
  | cons item rest ih =>
    intro u tail at_
    rw [List.flatMap_cons,List.append_assoc] at at_
    have first := each item List.mem_cons_self u _ at_
    have more := ih (fun x member => each x (List.mem_cons_of_mem _ member)) (front ++ [item]) _ tail at_.advance
    simp only [List.length_cons,pushes,first]
    apply more.trans
    rw [advance_advance,List.flatMap_cons,List.length_append,List.append_assoc,List.singleton_append]

theorem reads_assigns [Std.TransCmp cmp] {getKey : Unmarshall → K × Unmarshall} {getValue : Unmarshall → V × Unmarshall}
    {encodeKey : K → List UInt8} {encodeValue : V → List UInt8} (items : List (K × V))
    (key : ∀ entry ∈ items, Reads getKey (encodeKey entry.1) entry.1)
    (value : ∀ entry ∈ items, Reads getValue (encodeValue entry.2) entry.2) (front whole : OrderedMap cmp V)
    (equal : whole.entries = front.entries ++ items) :
    Reads (fun u => assigns getKey getValue items.length u front)
      (items.flatMap fun entry => encodeKey entry.1 ++ encodeValue entry.2) whole := by
  induction items generalizing front with
  | nil =>
    intro u tail at_
    rw [List.append_nil] at equal
    cases OrderedMap.ext equal
    simp [assigns,advance]
  | cons entry rest ih =>
    intro u tail at_
    rw [List.flatMap_cons,List.append_assoc,List.append_assoc] at at_
    have one := key entry List.mem_cons_self u _ at_
    have two := value entry List.mem_cons_self _ _ at_.advance
    have next : (front.assign entry.1 entry.2).entries = front.entries ++ [entry] := by
      apply front.assign_next
      exact equal ▸ whole.sorted
    have more := ih (fun other member => key other (List.mem_cons_of_mem _ member))
      (fun other member => value other (List.mem_cons_of_mem _ member)) (front.assign entry.1 entry.2)
      (by rw [equal,next,List.append_assoc]; rfl) _ tail at_.advance.advance
    simp only [List.length_cons,assigns,one,two]
    apply more.trans
    rw [advance_advance,advance_advance,List.flatMap_cons,List.length_append,List.length_append,Nat.add_assoc]

theorem count_toNat {encode : T → List UInt8} (nonempty : ∀ x, encode x ≠ []) {items : List T}
    (at_ : u.At (items.flatMap encode ++ tail)) : (UInt32.ofNat items.length).toNat = items.length := by
  have atLeast : items.length ≤ (items.flatMap encode).length := by
    clear at_
    induction items with
    | nil => exact Nat.le_refl _
    | cons item rest ih =>
      have first := List.length_pos_iff.mpr (nonempty item)
      simp only [List.length_cons,List.flatMap_cons,List.length_append]
      omega
  have bound := at_.length
  rw [List.length_append] at bound
  rw [UInt32.toNat_ofNat']
  exact Nat.mod_eq_of_lt (by omega)

theorem reads_vector {get : Unmarshall → T × Unmarshall} {encode : T → List UInt8} (nonempty : ∀ x, encode x ≠ [])
    (each : ∀ x, Reads get (encode x) x) (v : List T) :
    Reads (fun u => u.vector get []) (Words.be32 (UInt32.ofNat v.length) ++ v.flatMap encode) v := by
  intro u tail at_
  rw [List.append_assoc] at at_
  have counted := reads_unpack _ u _ at_
  have elements := reads_pushes v (fun x _ => each x) [] _ tail at_.advance
  simp only [vector,counted,count_toNat nonempty at_.advance]
  apply elements.trans
  rw [advance_advance,List.length_append,List.nil_append]

theorem reads_map [Std.TransCmp cmp] {getKey : Unmarshall → K × Unmarshall} {getValue : Unmarshall → V × Unmarshall}
    {encodeKey : K → List UInt8} {encodeValue : V → List UInt8} (nonempty : ∀ a, encodeKey a ≠ [])
    (key : ∀ a, Reads getKey (encodeKey a) a) (value : ∀ b, Reads getValue (encodeValue b) b) (d : OrderedMap cmp V) :
    Reads (fun u => u.map getKey getValue) (Words.be32 (UInt32.ofNat d.entries.length) ++
      d.entries.flatMap fun entry => encodeKey entry.1 ++ encodeValue entry.2) d := by
  intro u tail at_
  rw [List.append_assoc] at at_
  have counted := reads_unpack _ u _ at_
  have elements := reads_assigns d.entries (fun entry _ => key entry.1) (fun entry _ => value entry.2) .empty d rfl _ tail
    at_.advance
  have some_ : ∀ entry : K × V, encodeKey entry.1 ++ encodeValue entry.2 ≠ [] := by
    intro entry none
    exact nonempty entry.1 (List.append_eq_nil_iff.mp none).1
  simp only [map,counted,count_toNat some_ at_.advance]
  apply elements.trans
  rw [advance_advance,List.length_append]

end Unmarshall

namespace Shape

theorem encode_ne_nil (s : Shape) (x : s.Value) : s.encode x ≠ [] := by
  cases s with
  | base ty =>
    obtain ⟨v,typed⟩ := x
    show v.encode ≠ []
    cases v <;> simp [Val.encode,Words.be32]
  | attr => simp [encode,Words.be32]
  | vector of => simp [encode,Words.be32]
  | map key value => simp [encode,Words.be32]

theorem reads_encode (s : Shape) (x : s.Value) : Unmarshall.Reads s.get (s.encode x) x := by
  induction s with
  | base ty =>
    obtain ⟨v,rfl⟩ := x
    intro u tail at_
    have read : u.get v.ty = (v,u.advance v.encode.length) := Unmarshall.reads_val v u tail at_
    refine Prod.ext (Subtype.ext ?_) ?_
    · exact congrArg Prod.fst read
    · show (u.get v.ty).2 = u.advance v.encode.length
      rw [read]
  | attr =>
    intro u tail at_
    simp only [encode,List.append_assoc] at at_
    have one := Unmarshall.reads_unpack _ u _ at_
    have two := Unmarshall.reads_unpack _ _ _ at_.advance
    have three := Unmarshall.reads_unpack _ _ _ at_.advance.advance
    have four := Unmarshall.reads_unpack _ _ _ at_.advance.advance.advance
    have length : (attr.encode x).length = 16 := rfl
    simp only [get,one,two,three,four]
    simp only [Unmarshall.advance_advance,Words.be32_length,length]
    rfl
  | vector of ih => exact Unmarshall.reads_vector of.encode_ne_nil ih x
  | map key value ihKey ihValue =>
    exact @Unmarshall.reads_map _ _ key.kind.cmp _ _ _ _ _ key.encode_ne_nil ihKey ihValue x

end Shape

abbrev Item := (s : Shape) × s.Value

def Marshall.putItems (m : Marshall) (items : List Item) : Marshall := items.foldl (fun m item => item.1.put m item.2) m

def Unmarshall.getItems : List Shape → Unmarshall → List Item × Unmarshall
  | [],u => ([],u)
  | s :: rest,u =>
    let (x,u) := s.get u
    let (items,u) := getItems rest u
    (⟨s,x⟩ :: items,u)

def Item.encode (item : Item) : List UInt8 := item.1.encode item.2

-- The header of a request or of a reply, with its pack and its unpack.
inductive Header where
  | req (h : ReqHeader)
  | reply (h : ReplyHeader)
  deriving DecidableEq, Repr

def Marshall.packHeader (m : Marshall) : Header → Marshall
  | .req h => m.packReqHeader h
  | .reply h => m.packReplyHeader h

def Unmarshall.unpackHeader (u : Unmarshall) : Header → Header × Unmarshall
  | .req _ => (.req u.unpackReqHeader.1,u.unpackReqHeader.2)
  | .reply _ => (.reply u.unpackReplyHeader.1,u.unpackReplyHeader.2)

-- The writes so far are inside the buffer, which has at most doubled since.
structure Marshall.Roomy (m : Marshall) : Prop where
  default : defaultRpcSz ≤ m.capa
  inside : m.ind ≤ m.capa
  doubled : m.capa ≤ max defaultRpcSz (2*m.ind)

namespace Marshall.Roomy
variable {m : Marshall}

theorem rawbyte (roomy : m.Roomy) (x : UInt8) : (m.rawbyte x).Roomy := by
  obtain ⟨default,inside,doubled⟩ := roomy
  unfold defaultRpcSz at default doubled
  by_cases full : m.ind ≥ m.capa
  · constructor <;> simp only [Marshall.rawbyte,if_pos full,defaultRpcSz] <;> omega
  · constructor <;> simp only [Marshall.rawbyte,if_neg full,defaultRpcSz] <;> omega

theorem rawbytes (roomy : m.Roomy) (p : List UInt8) : (m.rawbytes p).Roomy := by
  obtain ⟨default,inside,doubled⟩ := roomy
  unfold defaultRpcSz at default doubled
  by_cases full : m.ind + p.length > m.capa
  · by_cases short : m.capa > p.length
    · constructor <;> simp only [Marshall.rawbytes,if_pos full,if_pos short,defaultRpcSz] <;> omega
    · constructor <;> simp only [Marshall.rawbytes,if_pos full,if_neg short,defaultRpcSz] <;> omega
  · constructor <;> simp only [Marshall.rawbytes,if_neg full,defaultRpcSz] <;> omega

theorem pack (roomy : m.Roomy) (x : UInt32) : (m.pack x).Roomy :=
  (((roomy.rawbyte _).rawbyte _).rawbyte _).rawbyte _

theorem put (roomy : m.Roomy) (v : Val) : (m.put v).Roomy := by
  cases v with
  | uchar x => exact roomy.rawbyte _
  | char x => exact roomy.rawbyte _
  | ushort x => exact (roomy.rawbyte _).rawbyte _
  | short x => exact (roomy.rawbyte _).rawbyte _
  | uint x => exact roomy.pack _
  | int x => exact roomy.pack _
  | ulonglong x => exact (roomy.pack _).pack _
  | string s => exact (roomy.pack _).rawbytes _

theorem foldl {T : Type} {put : Marshall → T → Marshall} (each : ∀ m x, Roomy m → (put m x).Roomy) (items : List T)
    (roomy : m.Roomy) : (items.foldl put m).Roomy := by
  induction items generalizing m with
  | nil => exact roomy
  | cons item rest ih => exact ih (each m item roomy)

theorem shape (s : Shape) (roomy : m.Roomy) (x : s.Value) : (s.put m x).Roomy := by
  induction s generalizing m with
  | base ty => exact roomy.put x.1
  | attr =>
    unfold Shape.put
    exact (((roomy.put _).put _).put _).put _
  | vector of ih => exact foldl (fun m item held => ih held item) _ (roomy.put _)
  | map key value ihKey ihValue =>
    exact foldl (fun m entry held => ihValue (ihKey held entry.1) entry.2) _ (roomy.put _)

theorem items (roomy : m.Roomy) (items : List Item) : (m.putItems items).Roomy :=
  foldl (fun _ item held => shape item.1 held item.2) items roomy

-- A header lies in the first bytes, where nothing has to grow.
def Unfilled (m : Marshall) (c n : Nat) : Prop := m.capa = c ∧ m.ind + n ≤ c

theorem Unfilled.rawbyte (room : Unfilled m c (n+1)) (x : UInt8) : Unfilled (m.rawbyte x) c n := by
  obtain ⟨rfl,room⟩ := room
  exact ⟨if_neg (by omega),by simp only [Marshall.rawbyte]; omega⟩

theorem Unfilled.pack (room : Unfilled m c (n+4)) (x : UInt32) : Unfilled (m.pack x) c n :=
  (((room.rawbyte _).rawbyte _).rawbyte _).rawbyte _

theorem header_keeps (default : defaultRpcSz ≤ m.capa) (h : Header) :
    (m.packHeader h).capa = m.capa ∧ (m.packHeader h).ind = m.ind := by
  unfold defaultRpcSz at default
  refine ⟨?_,by cases h <;> rfl⟩
  cases h with
  | req h =>
    have start : Unfilled {m with ind:=rpcSzSize} m.capa 20 := ⟨rfl,by simp only [rpcSzSize]; omega⟩
    have packed := ((((start.pack h.xid).pack h.proc).pack h.cltNonce).pack h.srvNonce).pack h.xidRep
    simpa only [Marshall.packHeader,Marshall.packReqHeader] using packed.1
  | reply h =>
    have start : Unfilled {m with ind:=rpcSzSize} m.capa 8 := ⟨rfl,by simp only [rpcSzSize]; omega⟩
    have packed := (start.pack h.xid).pack h.ret.toUInt32
    simpa only [Marshall.packHeader,Marshall.packReplyHeader] using packed.1

theorem header (roomy : m.Roomy) (h : Header) : (m.packHeader h).Roomy := by
  obtain ⟨same,ind⟩ := header_keeps roomy.default h
  constructor
  · rw [same]; exact roomy.default
  · rw [same,ind]; exact roomy.inside
  · rw [same,ind]; exact roomy.doubled

theorem string_capa (room : Unfilled m c 4) (s : List UInt8) : (m.put (.string s)).ind = m.ind+4+s.length ∧
    (m.put (.string s)).capa =
      if m.ind+4+s.length > c then (if c > s.length then 2*c else c+s.length) else c := by
  have sized : (m.pack (UInt32.ofNat s.length)).capa = c := (Unfilled.pack (n:=0) room _).1
  have rule : (m.put (.string s)).capa = if m.ind+4+s.length > (m.pack (UInt32.ofNat s.length)).capa then
      (if (m.pack (UInt32.ofNat s.length)).capa > s.length then 2*(m.pack (UInt32.ofNat s.length)).capa
        else (m.pack (UInt32.ofNat s.length)).capa+s.length) else (m.pack (UInt32.ofNat s.length)).capa := rfl
  rw [sized] at rule
  exact ⟨rfl,rule⟩

end Marshall.Roomy

theorem Marshall.str_putItems (m : Marshall) (items : List Item) :
    (m.putItems items).str = m.str ++ items.flatMap Item.encode :=
  str_foldl (fun m item => item.1.str_put m item.2) items m

theorem Unmarshall.reads_items (items : List Item) :
    Reads (getItems (items.map (·.1))) (items.flatMap Item.encode) items := by
  induction items with
  | nil =>
    intro u tail at_
    simp [getItems,advance]
  | cons item rest ih =>
    intro u tail at_
    rw [List.flatMap_cons,List.append_assoc] at at_
    have first := item.1.reads_encode item.2 u _ at_
    have more := ih _ tail at_.advance
    simp only [List.map_cons,getItems,first]
    rw [Item.encode] at more
    rw [more,advance_advance,List.flatMap_cons,List.length_append]
    rfl

def Header.encode : Header → List UInt8
  | .req h => h.encode
  | .reply h => h.encode

theorem Marshall.str_packHeader (m : Marshall) (h : Header) (room : rpcHeaderSz ≤ m.ind) :
    ∃ size body, size.length = 4 ∧ (m.packHeader h).str = size ++ h.encode ++ body ∧
      (m.packHeader h).str.drop rpcHeaderSz = m.str.drop rpcHeaderSz := by
  have four : (m.str.take 4).length = 4 := by
    rw [List.length_take,str_length]
    unfold rpcHeaderSz at room
    omega
  cases h with
  | req h =>
    have written := m.str_packReqHeader h room
    refine ⟨_,_,four,written,?_⟩
    rw [packHeader,written]
    exact List.drop_left' (by rw [List.length_append,four,h.encode_length]; rfl)
  | reply h =>
    have written := m.str_packReplyHeader h room
    have front : (m.str.take 4 ++ h.encode).length = 12 := by rw [List.length_append,four,h.encode_length]
    refine ⟨_,_,four,written,?_⟩
    rw [packHeader,written,rpcHeaderSz,List.drop_append,front,List.drop_eq_nil_of_le (by omega),List.nil_append,
      List.drop_drop]

theorem Unmarshall.unpackHeader_pdu (size body : List UInt8) (four : size.length = 4) (h : Header) :
    (ofPdu (size ++ h.encode ++ body)).unpackHeader h = (h,⟨size ++ h.encode ++ body,rpcHeaderSz,true⟩) := by
  cases h with
  | req h => simp only [Header.encode,unpackHeader,unpackReqHeader_pdu size body four h]
  | reply h => simp only [Header.encode,unpackHeader,unpackReplyHeader_pdu size body four h]

theorem Marshall.pdu_items (junk : Nat → UInt8) (h : Header) (front back : List Item) :
    let m := (((Marshall.new junk).putItems front).packHeader h).putItems back
    ∃ size body, size.length = 4 ∧ m.str = size ++ h.encode ++ body ∧ rpcHeaderSz ≤ m.str.length ∧
      m.str.drop rpcHeaderSz = (front ++ back).flatMap Item.encode := by
  intro m
  have fresh : (Marshall.new junk).str.length = rpcHeaderSz := str_length _
  have values := (Marshall.new junk).str_putItems front
  have room : rpcHeaderSz ≤ ((Marshall.new junk).putItems front).ind := by
    rw [← str_length,values,List.length_append,fresh]
    omega
  obtain ⟨size,body,four,layout,left⟩ := ((Marshall.new junk).putItems front).str_packHeader h room
  have whole : m.str = _ := str_putItems _ back
  have long : rpcHeaderSz ≤ (((Marshall.new junk).putItems front).packHeader h).str.length := by
    have same : (((Marshall.new junk).putItems front).packHeader h).ind = ((Marshall.new junk).putItems front).ind := by
      cases h <;> rfl
    rw [str_length,same]
    exact room
  refine ⟨size,body ++ back.flatMap Item.encode,four,?_,?_,?_⟩
  · rw [whole,layout,List.append_assoc]
  · rw [whole,List.length_append]
    omega
  · rw [whole,List.drop_append_of_le_length long,left,values,List.drop_left' fresh,List.flatMap_append]

theorem marshalled_values_read_back (junk : Nat → UInt8) (h : Header) (front back : List Item)
    (small : ((((Marshall.new junk).putItems front).packHeader h).putItems back).ind < 2^30) :
    let m := (((Marshall.new junk).putItems front).packHeader h).putItems back
    m.ind ≤ m.capa ∧ m.capa < 2^31 ∧ ∃ u, (Unmarshall.ofPdu m.str).unpackHeader h = (h,u) ∧
      ∀ first rest, front ++ back = first ++ rest →
        ∃ after, Unmarshall.getItems (first.map (·.1)) u = (first,after) ∧ after.ok = true ∧
          (after.okdone = true ↔ rest = []) := by
  intro m
  change m.ind < 2^30 at small
  have fresh : (Marshall.new junk).Roomy := by
    constructor <;> simp only [Marshall.new,defaultRpcSz,rpcHeaderSz] <;> omega
  have roomy : m.Roomy := ((fresh.items front).header h).items back
  refine ⟨roomy.inside,?_,?_⟩
  · have doubled := roomy.doubled
    unfold defaultRpcSz at doubled
    omega
  · obtain ⟨size,body,four,layout,inside,left⟩ := Marshall.pdu_items junk h front back
    have read := Unmarshall.unpackHeader_pdu size body four h
    rw [← layout] at read
    refine ⟨_,read,fun first rest equal => ?_⟩
    rw [equal,List.flatMap_append] at left
    have at_ : (⟨m.str,rpcHeaderSz,true⟩ : Unmarshall).At (first.flatMap Item.encode ++ rest.flatMap Item.encode) :=
      ⟨left,rfl,inside,by rw [m.str_length]; omega⟩
    refine ⟨_,Unmarshall.reads_items first _ _ at_,rfl,?_⟩
    rw [at_.advance.okdone]
    constructor
    · intro none
      cases rest with
      | nil => rfl
      | cons item rest => exact absurd (List.append_eq_nil_iff.mp none).1 (item.1.encode_ne_nil item.2)
    · rintro rfl
      rfl

namespace Containers

def names : Item := ⟨.vector (.base .string),[⟨.string [97],rfl⟩,⟨.string [],rfl⟩]⟩
def stats : Item :=
  ⟨.map (.base .int) .attr,⟨[(⟨.int (-1),rfl⟩,⟨0,0,0,0⟩),(⟨.int 3,rfl⟩,⟨1,2,3,4⟩)],by decide⟩⟩

theorem names_and_stats_read_back :
    ∃ u after, (Unmarshall.ofPdu ((((Marshall.new fun _ => 0).putItems [names,stats]).packHeader (.reply ⟨7,-2⟩)).putItems
        []).str).unpackHeader (.reply ⟨7,-2⟩) = (.reply ⟨7,-2⟩,u) ∧
      Unmarshall.getItems [names.1,stats.1] u = ([names,stats],after) ∧ after.okdone = true := by
  obtain ⟨_,_,u,header,values⟩ := marshalled_values_read_back (fun _ => 0) (.reply ⟨7,-2⟩) [names,stats] [] (by decide)
  obtain ⟨after,read,_,done⟩ := values [names,stats] [] rfl
  exact ⟨u,after,header,read,done.mpr rfl⟩

def text (s : List UInt8) : Item := ⟨.base .string,⟨.string s,rfl⟩⟩

-- The bytes of the values alone do not bound _capa: two strings that fill it to
-- 2^30 and go past it by less than the header double it to 2^31.
theorem two_strings_double (h : Header) (first : s.length = 2^30-1024) (second : t.length = 993) :
    ((((Marshall.new junk).putItems []).packHeader h).putItems [text s,text t]).capa = 2^31 := by
  let start := (Marshall.new junk).packHeader h
  obtain ⟨capa,ind⟩ := Marshall.Roomy.header_keeps (m:=.new junk) (Nat.le_refl _) h
  have capa : start.capa = 1024 := capa
  have ind : start.ind = 24 := ind
  obtain ⟨ind₁,capa₁⟩ := Marshall.Roomy.string_capa (m:=start) ⟨capa,by omega⟩ s
  rw [if_pos (by omega),if_neg (by omega)] at capa₁
  obtain ⟨_,capa₂⟩ := Marshall.Roomy.string_capa (m:=start.put (.string s)) ⟨capa₁,by omega⟩ t
  rw [if_pos (by omega),if_pos (by omega)] at capa₂
  show ((start.put (.string s)).put (.string t)).capa = 2^31
  omega

theorem two_strings_overflow : ¬ ∀ (junk : Nat → UInt8) (h : Header) (front back : List Item),
    ((front ++ back).flatMap Item.encode).length < 2^30 →
    let m := (((Marshall.new junk).putItems front).packHeader h).putItems back
    m.ind ≤ m.capa ∧ m.capa < 2^31 ∧ ∃ u, (Unmarshall.ofPdu m.str).unpackHeader h = (h,u) ∧
      ∀ first rest, front ++ back = first ++ rest →
        ∃ after, Unmarshall.getItems (first.map (·.1)) u = (first,after) ∧ after.ok = true ∧
          (after.okdone = true ↔ rest = []) := by
  intro always
  obtain ⟨s,first⟩ : ∃ s : List UInt8, s.length = 2^30-1024 := ⟨List.replicate _ 0,List.length_replicate⟩
  obtain ⟨t,second⟩ : ∃ t : List UInt8, t.length = 993 := ⟨List.replicate _ 0,List.length_replicate⟩
  have size : (([] ++ [text s,text t]).flatMap Item.encode).length = 2^30-23 := by
    have both : (([] ++ [text s,text t]).flatMap Item.encode).length = 4+s.length+(4+t.length) := by
      simp [text,Item.encode,Shape.encode,Val.encode]
      omega
    rw [both]
    omega
  obtain ⟨_,capa,_⟩ := always (fun _ => 0) (.req ⟨0,0,0,0,0⟩) [] [text s,text t] (by rw [size]; decide)
  rw [two_strings_double (.req ⟨0,0,0,0,0⟩) first second] at capa
  exact absurd capa (by decide)

end Containers
end YfsLab
