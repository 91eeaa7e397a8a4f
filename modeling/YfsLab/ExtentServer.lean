import YfsLab.ExtentProtocol

namespace YfsLab

-- extent_protocol::attr; extent_server never sets the fields after the value
-- initialisation.
structure Attr where
  atime : UInt32
  mtime : UInt32
  ctime : UInt32
  size : UInt32
  deriving DecidableEq, Repr

-- class extent_server: the maps _data and _attr.
structure ExtentServer where
  data : UInt64 → Option (List UInt8)
  attr : UInt64 → Option Attr

namespace ExtentServer

def assign {V : Type} (map : UInt64 → Option V) (id : UInt64) (value : V) : UInt64 → Option V :=
  fun key => if key = id then some value else map key

-- The constructor makes an empty directory under inum 1.
def initial : ExtentServer where
  data := assign (fun _ => none) 1 (ExtentProtocol.serialize [])
  attr := assign (fun _ => none) 1 ⟨0,0,0,0⟩

def put (s : ExtentServer) (id : UInt64) (buf : List UInt8) : ExtentServer where
  data := assign s.data id buf
  attr := match s.attr id with
    | none => assign s.attr id ⟨0,0,0,0⟩
    | some _ => s.attr

-- get and getattr return NOENT where the model has none.
def get (s : ExtentServer) (id : UInt64) : Option (List UInt8) := s.data id
def getattr (s : ExtentServer) (id : UInt64) : Option Attr := s.attr id

@[simp] theorem assign_self {V : Type} (map : UInt64 → Option V) (id : UInt64) (value : V) :
    assign map id value id = some value := if_pos rfl

@[simp] theorem put_data_self (s : ExtentServer) (id : UInt64) (buf : List UInt8) :
    (s.put id buf).data id = some buf := if_pos rfl

theorem put_data_other {id key : UInt64} (s : ExtentServer) (buf : List UInt8) (other : key ≠ id) :
    (s.put id buf).data key = s.data key := if_neg other

theorem put_attr_self (s : ExtentServer) (id : UInt64) (buf : List UInt8) : ((s.put id buf).attr id).isSome := by
  cases held : s.attr id with
  | none => simp [put,held]
  | some a => simp [put,held]

theorem put_attr_other {id key : UInt64} (s : ExtentServer) (buf : List UInt8) (other : key ≠ id) :
    (s.put id buf).attr key = s.attr key := by
  cases held : s.attr id with
  | none => simp [put,held,assign,other]
  | some a => simp [put,held]

def Present (s : ExtentServer) (id : UInt64) : Prop := (s.get id).isSome ∧ (s.getattr id).isSome

instance (s : ExtentServer) (id : UInt64) : Decidable (s.Present id) := inferInstanceAs (Decidable (_ ∧ _))

theorem put_present (s : ExtentServer) (id key : UInt64) (buf : List UInt8) :
    (s.put id buf).Present key ↔ key = id ∨ s.Present key := by
  by_cases same : key = id
  · subst same
    simp [Present,get,getattr,put_attr_self]
  · simp [Present,get,getattr,put_data_other s buf same,put_attr_other s buf same,same]

end ExtentServer
end YfsLab
