import YfsLab.Lib.Words

namespace YfsLab

-- What a directory entry says: a name, its inode and the offset behind it.
structure Dirent where
  name : List UInt8
  ino : UInt64
  off : UInt64
  deriving DecidableEq, Repr

-- The names FUSE has, with a length that namelen can hold.
def Named (name : List UInt8) : Prop := name ≠ [] ∧ 0 ∉ name ∧ name.length < 2^32

instance (name : List UInt8) : Decidable (Named name) := inferInstanceAs (Decidable (_ ∧ _))

-- fuse_dirent_size and the bytes fuse_add_dirent writes, and what the kernel
-- finds at the front of a reply: a complete entry and what is behind it.
structure DirentFormat where
  size : Nat → Nat
  add : Dirent → List UInt8
  read : List UInt8 → Option (Dirent × List UInt8)
  size_pos : ∀ n, 0 < size n
  add_length : ∀ d, (add d).length = size d.name.length
  read_add : ∀ d rest, Named d.name → read (add d ++ rest) = some (d,rest)
  read_part : ∀ d n, Named d.name → n < size d.name.length → read ((add d).take n) = none

namespace DirentFormat
variable (fmt : DirentFormat)

def bytes (ds : List Dirent) : List UInt8 := ds.flatMap fmt.add

-- The complete entries of a reply. Every entry takes a byte at least.
def complete : Nat → List UInt8 → List Dirent
  | 0,_ => []
  | n+1,reply =>
    match fmt.read reply with
    | none => []
    | some (d,rest) => d :: complete n rest

def fitting : Nat → List Dirent → Nat
  | _,[] => 0
  | page,d :: ds => if fmt.size d.name.length ≤ page then fitting (page - fmt.size d.name.length) ds + 1 else 0

variable {fmt} {ds : List Dirent} {page : Nat}

theorem read_nil : fmt.read [] = none := by
  have part := fmt.read_part ⟨[1],0,0⟩ 0 (by decide) (fmt.size_pos _)
  rwa [List.take_zero] at part

theorem complete_nil (n : Nat) : fmt.complete n [] = [] := by
  cases n with
  | zero => rfl
  | succ n => rw [complete,read_nil]

theorem complete_page (named : ∀ d ∈ ds, Named d.name) (n : Nat) (enough : ((fmt.bytes ds).take page).length ≤ n) :
    fmt.complete n ((fmt.bytes ds).take page) = ds.take (fmt.fitting page ds) := by
  induction ds generalizing page n with
  | nil =>
    rw [bytes,List.flatMap_nil,List.take_nil,complete_nil]
    rfl
  | cons d ds ih =>
    have valid := named d List.mem_cons_self
    have length := fmt.add_length d
    have positive := fmt.size_pos d.name.length
    rw [bytes,List.flatMap_cons] at enough ⊢
    rw [fitting]
    by_cases fits : fmt.size d.name.length ≤ page
    · have cut : (fmt.add d ++ ds.flatMap fmt.add).take page =
          fmt.add d ++ (fmt.bytes ds).take (page - fmt.size d.name.length) := by
        rw [List.take_append,List.take_of_length_le (by omega),length]
        rfl
      rw [cut,List.length_append] at enough
      obtain ⟨m,rfl⟩ : ∃ m, n = m+1 := ⟨n-1,by omega⟩
      rw [cut,complete,fmt.read_add d _ valid,if_pos fits]
      exact congrArg (d :: ·) (ih (fun other member => named other (List.mem_cons_of_mem _ member)) m (by omega))
    · have cut : (fmt.add d ++ ds.flatMap fmt.add).take page = (fmt.add d).take page :=
        List.take_append_of_le_length (by omega)
      rw [cut,if_neg fits]
      cases n with
      | zero => rfl
      | succ n => rw [complete,fmt.read_part d page valid (by omega),List.take_zero]

end DirentFormat

-- struct fuse_dirent: ino, off, namelen and type in host order, the name, and
-- zeros up to a multiple of eight.
namespace FuseDirent

def size (namelen : Nat) : Nat := (24+namelen+7)/8*8

def fields (d : Dirent) : List UInt8 :=
  Words.leBytes 8 d.ino.toNat ++ Words.leBytes 8 d.off.toNat ++ Words.leBytes 4 (UInt32.ofNat d.name.length).toNat ++
    Words.leBytes 4 0

def add (d : Dirent) : List UInt8 :=
  fields d ++ d.name ++ List.replicate (size d.name.length - (24+d.name.length)) 0

def read (reply : List UInt8) : Option (Dirent × List UInt8) :=
  let namelen := Words.leValue ((reply.drop 16).take 4)
  if reply.length < 24 ∨ reply.length < size namelen then none
  else some (⟨(reply.drop 24).take namelen,UInt64.ofNat (Words.leValue (reply.take 8)),
    UInt64.ofNat (Words.leValue ((reply.drop 8).take 8))⟩,reply.drop (size namelen))

theorem size_fits (namelen : Nat) : 24+namelen ≤ size namelen := by
  unfold size
  omega

theorem fields_length (d : Dirent) : (fields d).length = 24 := by simp [fields]

theorem add_length (d : Dirent) : (add d).length = size d.name.length := by
  have fits := size_fits d.name.length
  simp only [add,List.length_append,fields_length,List.length_replicate]
  omega

theorem fields_read (d : Dirent) (rest : List UInt8) (small : d.name.length < 2^32) :
    Words.leValue (((fields d ++ rest).drop 16).take 4) = d.name.length ∧
      UInt64.ofNat (Words.leValue ((fields d ++ rest).take 8)) = d.ino ∧
      UInt64.ofNat (Words.leValue (((fields d ++ rest).drop 8).take 8)) = d.off := by
  have ino := d.ino.toNat_lt
  have off := d.off.toNat_lt
  have namelen : (UInt32.ofNat d.name.length).toNat = d.name.length := by
    rw [UInt32.toNat_ofNat']
    exact Nat.mod_eq_of_lt small
  simp only [fields,List.append_assoc]
  refine ⟨?_,?_,?_⟩
  · rw [← List.append_assoc,List.drop_left' (by simp),List.take_left' (by simp),namelen]
    exact Words.leValue_leBytes 4 _ (by omega)
  · rw [List.take_left' (by simp),Words.leValue_leBytes 8 _ (by omega),UInt64.ofNat_toNat]
  · rw [List.drop_left' (by simp),List.take_left' (by simp),Words.leValue_leBytes 8 _ (by omega),UInt64.ofNat_toNat]

theorem read_add (d : Dirent) (rest : List UInt8) (small : d.name.length < 2^32) : read (add d ++ rest) = some (d,rest) := by
  have fits := size_fits d.name.length
  have length := add_length d
  have shape : add d ++ rest = fields d ++ (d.name ++ (List.replicate (size d.name.length - (24+d.name.length)) 0 ++ rest)) := by
    simp only [add,List.append_assoc]
  obtain ⟨namelen,ino,off⟩ := fields_read d (d.name ++ (List.replicate (size d.name.length - (24+d.name.length)) 0 ++ rest)) small
  rw [← shape] at namelen ino off
  have name : ((add d ++ rest).drop 24).take d.name.length = d.name := by
    rw [shape,List.drop_left' (fields_length d),List.take_left' rfl]
  have long : ¬ ((add d ++ rest).length < 24 ∨ (add d ++ rest).length < size d.name.length) := by
    rw [List.length_append]
    omega
  rw [read]
  simp only [namelen,ino,off]
  rw [if_neg long,name,List.drop_left' length]

theorem read_part (d : Dirent) (n : Nat) (small : d.name.length < 2^32) (short : n < size d.name.length) :
    read ((add d).take n) = none := by
  have length : ((add d).take n).length = n := by
    rw [List.length_take,add_length]
    omega
  rw [read]
  simp only [length]
  by_cases front : n < 24
  · rw [if_pos (.inl front)]
  · have shape : (add d).take n =
        fields d ++ (d.name ++ List.replicate (size d.name.length - (24+d.name.length)) 0).take (n-24) := by
      rw [add,List.append_assoc,List.take_append,fields_length,List.take_of_length_le (by rw [fields_length]; omega)]
    obtain ⟨namelen,_,_⟩ := fields_read d ((d.name ++ List.replicate (size d.name.length - (24+d.name.length)) 0).take (n-24)) small
    rw [← shape] at namelen
    rw [namelen,if_pos (.inr short)]

end FuseDirent

def fuseDirent : DirentFormat where
  size := FuseDirent.size
  add := FuseDirent.add
  read := FuseDirent.read
  size_pos := fun namelen => Nat.lt_of_lt_of_le (by omega) (FuseDirent.size_fits namelen)
  add_length := FuseDirent.add_length
  read_add := fun d rest named => FuseDirent.read_add d rest named.2.2
  read_part := fun d n named => FuseDirent.read_part d n named.2.2

end YfsLab
