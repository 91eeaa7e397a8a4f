import Mathlib.Data.List.TakeWhile
import YfsLab.Creates
import YfsLab.Directory
import YfsLab.FuseDirent

namespace YfsLab.Readdir
open Machine
open YfsClient ExtentProtocol
open Directory (World)

-- struct dirbuf; what b.size counts is in memory.
structure Dirbuf where
  p : List UInt8
  counted : p.length < 2^64

def Dirbuf.size (b : Dirbuf) : UInt64 := UInt64.ofNat b.p.length

def Dirbuf.empty : Dirbuf := ⟨[],by decide⟩

-- c_str(), up to the zero that strlen finds.
def cStr (s : List UInt8) : List UInt8 := s.takeWhile (· ≠ 0)

-- `none` is a size that realloc has no memory for: the entry is written all
-- the same.
def dirbufAdd (fmt : DirentFormat) (b : Dirbuf) (name : List UInt8) (ino : UInt64) : Option Dirbuf :=
  let entry := fmt.add ⟨name,ino,UInt64.ofNat (b.p.length + fmt.size name.length)⟩
  if counted : (b.p ++ entry).length < 2^64 then some ⟨b.p ++ entry,counted⟩ else none

def replyBufLimited (b : Dirbuf) (off maxsize : UInt64) : List UInt8 :=
  if off < b.size then (b.p.drop off.toNat).take (if b.size - off < maxsize then b.size - off else maxsize).toNat else []

inductive Reply where
  | err
  | buf (bytes : List UInt8)
  deriving DecidableEq, Repr

def fill (fmt : DirentFormat) (b : Dirbuf) (fl : Filelist) : Option Dirbuf :=
  fl.foldlM (fun b entry => dirbufAdd fmt b (cStr entry.2) entry.1) b

def fuseserverReaddir (fmt : DirentFormat) (junk : Nat → UInt8) (ino size off : UInt64) : Client (Option Reply) :=
  if isdir ino then do
    let (r,fl) ← readdir junk ino []
    let b := match r with
      | .OK => fill fmt .empty fl
      | _ => some .empty
    return b.map fun b => .buf (replyBufLimited b off size)
  else return some .err

-- The extent RPCs reach the server. A PDU that is too large is not accepted,
-- and its call fails.
def handle (stream : Nat → Rand) (w : World) : (q : Query) → Answer q × World
  | .get id => ((w.server.get id).filter fun buf => rpcHeaderSz + (encodes [.string buf]).length ≤ maxPdu,w)
  | .put id buf => if Creates.Fits id buf then (true,{w with server:=w.server.put id buf}) else (false,w)
  | .rand => (stream w.draws,{w with draws:=w.draws+1})

-- Names as FUSE supplies them.
abbrev Name := {name : List UInt8 // name ≠ [] ∧ 0 ∉ name}

-- The kernel lists a directory: the offset it asks at next, and the entries it
-- has consumed. It is done with the first empty reply.
structure Listing where
  world : World
  off : UInt64
  listed : Filelist
  ended : Bool

def start (w : World) : Listing := ⟨w,0,[],false⟩

inductive Label where
  | page (size : UInt64)
  | createfile (name : Name) (id : UInt64)
  deriving DecidableEq

section Steps
variable (fmt : DirentFormat) (junk : Nat → UInt8) (stream : Nat → Rand) (dir : UInt64)

def consume (s : Listing) (reply : List UInt8) : Listing :=
  if reply = [] then {s with ended:=true}
  else
    let ds := fmt.complete reply.length reply
    {s with off:=(ds.getLast?.map Dirent.off).getD s.off,listed:=s.listed ++ ds.map fun d => (d.ino,d.name)}

def step (s : Listing) : Label → Option Listing
  | .page size =>
    if s.ended then none
    else
      match (fuseserverReaddir fmt junk dir size s.off).run (handle stream) s.world with
      | (some (.buf reply),world) => some (consume fmt {s with world} reply)
      | _ => none
  | .createfile name id => some {s with world:=((createfile junk dir name.1 id).run (handle stream) s.world).2}

-- The RPC of a page succeeds, and the page has room for the next entry.
def Roomy (s : Listing) : Label → Prop
  | .page size =>
    let result := ((readdir junk dir []).run (handle stream) s.world).1
    result.1 = .OK ∧ ∀ entry ∈ result.2[s.listed.length]?, fmt.size entry.2.length ≤ size.toNat
  | .createfile _ _ => True

instance (s : Listing) : (label : Label) → Decidable (Roomy fmt junk stream dir s label)
  | .page _ => inferInstanceAs (Decidable (_ ∧ ∀ _ ∈ _, _))
  | .createfile _ _ => inferInstanceAs (Decidable True)

end Steps

def laid (fmt : DirentFormat) : Nat → Filelist → List Dirent
  | _,[] => []
  | at_,entry :: fl =>
    let behind := at_ + fmt.size entry.2.length
    ⟨entry.2,entry.1,UInt64.ofNat behind⟩ :: laid fmt behind fl

def total (fmt : DirentFormat) (fl : Filelist) : Nat := (fl.map fun entry => fmt.size entry.2.length).sum

section Layout
variable {fmt : DirentFormat} {fl one two : Filelist} {at_ : Nat}

@[simp] theorem total_nil : total fmt [] = 0 := rfl

@[simp] theorem total_cons (entry : UInt64 × List UInt8) (fl : Filelist) :
    total fmt (entry :: fl) = fmt.size entry.2.length + total fmt fl := by
  simp [total]

@[simp] theorem total_append (one two : Filelist) : total fmt (one ++ two) = total fmt one + total fmt two := by
  simp [total]

theorem laid_append (at_ : Nat) (one two : Filelist) :
    laid fmt at_ (one ++ two) = laid fmt at_ one ++ laid fmt (at_ + total fmt one) two := by
  induction one generalizing at_ with
  | nil => rfl
  | cons entry one ih =>
    simp only [List.cons_append,laid,total_cons,ih,Nat.add_assoc]

theorem laid_take (at_ : Nat) (fl : Filelist) (k : Nat) : (laid fmt at_ fl).take k = laid fmt at_ (fl.take k) := by
  induction fl generalizing at_ k with
  | nil => simp [laid]
  | cons entry fl ih =>
    cases k with
    | zero => rfl
    | succ k => simp only [laid,List.take_succ_cons,ih]

theorem laid_entries (fmt : DirentFormat) (at_ : Nat) (fl : Filelist) : (laid fmt at_ fl).map (fun d => (d.ino,d.name)) = fl := by
  induction fl generalizing at_ with
  | nil => rfl
  | cons entry fl ih => simp only [laid,List.map_cons,ih]

theorem laid_named (at_ : Nat) (named : ∀ entry ∈ fl, Named entry.2) : ∀ d ∈ laid fmt at_ fl, Named d.name := by
  intro d member
  have inside : (d.ino,d.name) ∈ fl := by
    rw [← laid_entries fmt at_ fl]
    exact List.mem_map.mpr ⟨d,member,rfl⟩
  exact named _ inside

theorem laid_length (at_ : Nat) (fl : Filelist) : (fmt.bytes (laid fmt at_ fl)).length = total fmt fl := by
  induction fl generalizing at_ with
  | nil => rfl
  | cons entry fl ih =>
    have rest := ih (at_ + fmt.size entry.2.length)
    rw [DirentFormat.bytes] at rest ⊢
    simp only [laid,List.flatMap_cons,List.length_append,fmt.add_length,rest,total_cons]

theorem laid_last (at_ : Nat) (some_ : fl ≠ []) :
    (laid fmt at_ fl).getLast?.map Dirent.off = some (UInt64.ofNat (at_ + total fmt fl)) := by
  obtain ⟨front,entry,rfl⟩ := (List.eq_nil_or_concat fl).resolve_left some_
  rw [List.concat_eq_append,laid_append]
  simp [laid,Nat.add_assoc]

theorem cStr_named (free_ : 0 ∉ name) : cStr name = name := by
  refine List.takeWhile_eq_self_iff.mpr fun c member => ?_
  rw [decide_eq_true_eq]
  exact fun zero => free_ (zero ▸ member)

theorem dirbufAdd_p {b after : Dirbuf} {name : List UInt8} {ino : UInt64} (added : dirbufAdd fmt b name ino = some after) :
    after.p = b.p ++ fmt.add ⟨name,ino,UInt64.ofNat (b.p.length + fmt.size name.length)⟩ := by
  simp only [dirbufAdd] at added
  split at added
  · cases Option.some.inj added
    rfl
  · cases added

theorem fill_laid {b after : Dirbuf} (zeros : ∀ entry ∈ fl, 0 ∉ entry.2) (filled : fill fmt b fl = some after) :
    after.p = b.p ++ fmt.bytes (laid fmt b.p.length fl) := by
  induction fl generalizing b with
  | nil =>
    cases Option.some.inj filled
    simp [laid,DirentFormat.bytes]
  | cons entry fl ih =>
    obtain ⟨mid,added,rest⟩ := Option.bind_eq_some_iff.mp filled
    have whole := ih (fun other member => zeros other (List.mem_cons_of_mem _ member)) rest
    have here := dirbufAdd_p added
    rw [cStr_named (zeros entry List.mem_cons_self)] at here
    have size : mid.p.length = b.p.length + fmt.size entry.2.length := by
      rw [here,List.length_append,fmt.add_length]
    rw [whole,size,here]
    simp only [DirentFormat.bytes,laid,List.flatMap_cons,List.append_assoc]

theorem fill_some (fl : Filelist) (b : Dirbuf) (zeros : ∀ entry ∈ fl, 0 ∉ entry.2) (memory : b.p.length + total fmt fl < 2^64) :
    ∃ after, fill fmt b fl = some after := by
  induction fl generalizing b with
  | nil => exact ⟨b,rfl⟩
  | cons entry fl ih =>
    rw [total_cons] at memory
    have here := cStr_named (zeros entry List.mem_cons_self)
    obtain ⟨mid,added⟩ : ∃ mid, dirbufAdd fmt b (cStr entry.2) entry.1 = some mid := by
      rw [here]
      refine ⟨_,dif_pos ?_⟩
      rw [List.length_append,fmt.add_length]
      exact Nat.lt_of_le_of_lt (Nat.add_le_add_left (Nat.le_add_right _ _) _) memory
    have size : mid.p.length = b.p.length + fmt.size entry.2.length := by
      rw [dirbufAdd_p added,List.length_append,fmt.add_length,here]
    obtain ⟨after,filled⟩ := ih mid (fun other member => zeros other (List.mem_cons_of_mem _ member)) (by omega)
    exact ⟨after,Option.bind_eq_some_iff.mpr ⟨mid,added,filled⟩⟩

end Layout

-- One reply: the bytes of the entries behind the offset, up to the page size.
section Page
variable {fmt : DirentFormat} {fl rest : Filelist} {size : UInt64}

theorem Dirbuf.size_toNat (b : Dirbuf) : b.size.toNat = b.p.length := by
  rw [Dirbuf.size,UInt64.toNat_ofNat']
  exact Nat.mod_eq_of_lt b.counted

theorem replyBufLimited_eq (b : Dirbuf) (off maxsize : UInt64) :
    replyBufLimited b off maxsize = (b.p.drop off.toNat).take maxsize.toNat := by
  have counted := b.size_toNat
  unfold replyBufLimited
  split
  · rename_i inside
    have left : (b.size - off).toNat = (b.p.drop off.toNat).length := by
      rw [UInt64.toNat_sub_of_le _ _ (UInt64.le_of_lt inside),counted,List.length_drop]
    split
    · rename_i short
      have fewer : (b.p.drop off.toNat).length ≤ maxsize.toNat := by
        rw [← left]
        exact Nat.le_of_lt (UInt64.lt_iff_toNat_lt.mp short)
      rw [left,List.take_of_length_le (Nat.le_refl _),List.take_of_length_le fewer]
    · rfl
  · rename_i outside
    have past : b.p.length ≤ off.toNat := by
      rw [← counted]
      exact UInt64.le_iff_toNat_le.mp (UInt64.not_lt.mp outside)
    rw [List.drop_eq_nil_of_le past,List.take_nil]

theorem consume_page (fmt : DirentFormat) (s : Listing) {b : Dirbuf} (named : ∀ entry ∈ fl, Named entry.2)
    (whole : b.p = fmt.bytes (laid fmt 0 fl)) (split : fl = s.listed ++ rest) (at_ : s.off.toNat = total fmt s.listed)
    (room : ∀ entry ∈ rest.head?, fmt.size entry.2.length ≤ size.toNat) :
    (rest = [] ∧ consume fmt s (replyBufLimited b s.off size) = {s with ended:=true}) ∨
      ∃ got, got ≠ [] ∧ got <+: rest ∧ consume fmt s (replyBufLimited b s.off size) =
        {s with off:=UInt64.ofNat (total fmt (s.listed ++ got)),listed:=s.listed ++ got} := by
  have behind : b.p.drop s.off.toNat = fmt.bytes (laid fmt (total fmt s.listed) rest) := by
    rw [whole,split,laid_append,Nat.zero_add,DirentFormat.bytes,List.flatMap_append,at_]
    exact List.drop_left' (laid_length 0 s.listed)
  rw [replyBufLimited_eq,behind]
  cases rest with
  | nil =>
    refine .inl ⟨rfl,?_⟩
    rw [laid,DirentFormat.bytes,List.flatMap_nil,List.take_nil]
    exact if_pos rfl
  | cons entry rest =>
    have large := room entry rfl
    have positive := fmt.size_pos entry.2.length
    obtain ⟨k,fits⟩ : ∃ k, fmt.fitting size.toNat (laid fmt (total fmt s.listed) (entry :: rest)) = k+1 := ⟨_,if_pos large⟩
    have later : ∀ d ∈ laid fmt (total fmt s.listed) (entry :: rest), Named d.name := by
      refine laid_named _ fun other member => named other ?_
      rw [split]
      exact List.mem_append_right _ member
    have long : ((fmt.bytes (laid fmt (total fmt s.listed) (entry :: rest))).take size.toNat).length ≠ 0 := by
      rw [List.length_take,laid_length,total_cons]
      omega
    have some_ : (fmt.bytes (laid fmt (total fmt s.listed) (entry :: rest))).take size.toNat ≠ [] :=
      fun empty => long (by rw [empty]; rfl)
    refine .inr ⟨entry :: rest.take k,List.cons_ne_nil _ _,List.take_prefix (k+1) (entry :: rest),?_⟩
    rw [consume,if_neg some_,DirentFormat.complete_page later _ (Nat.le_refl _),fits,laid_take,List.take_succ_cons]
    simp only [laid_entries,laid_last _ (List.cons_ne_nil entry (rest.take k)),Option.getD_some,total_append]

end Page

section Calls
variable {junk : Nat → UInt8} {stream : Nat → Rand} {w : World} {dir : UInt64} {fl : Filelist} {name : List UInt8}

theorem get_cases (stream : Nat → Rand) (stored : w.server.get dir = some buf) :
    (handle stream w (.get dir)).1 = none ∨ ((handle stream w (.get dir)).1 = some buf ∧ buf.length + 1 < 2^32) := by
  have answer : (handle stream w (.get dir)).1 =
      (w.server.get dir).filter fun buf => rpcHeaderSz + (encodes [.string buf]).length ≤ maxPdu := rfl
  rw [answer,stored,Option.filter_some]
  split
  · rename_i fits
    refine .inr ⟨rfl,?_⟩
    simp only [encodes,Val.encode,List.flatMap_cons,List.flatMap_nil,List.length_append,Words.be32_length,maxPdu,
      decide_eq_true_eq] at fits
    omega
  · exact .inl rfl

theorem run_lookup (id : UInt64) : (lookup junk dir name id).run (handle stream) w =
    (lookupIn junk name id (handle stream w (.get dir)).1,w) := rfl

theorem run_readdir (out : Filelist) : (readdir junk dir out).run (handle stream) w =
    (readdirOf junk out (handle stream w (.get dir)).1,w) := rfl

theorem readdir_cases (junk : Nat → UInt8) (stream : Nat → Rand) (stored : w.server.get dir = some (serialize fl)) (named : ∀ entry ∈ fl, entry.2 ≠ []) (out : Filelist) :
    readdirOf junk out (handle stream w (.get dir)).1 = (.IOERR,out) ∨
      (readdirOf junk out (handle stream w (.get dir)).1 = (.OK,out ++ fl) ∧ (serialize fl).length + 1 < 2^32) := by
  rcases get_cases stream stored with lost | ⟨got,bounded⟩
  · rw [lost]
    exact .inl rfl
  · rw [got]
    exact .inr ⟨readdirOf_sound ⟨named,bounded⟩ out,bounded⟩

theorem lookup_cases (junk : Nat → UInt8) (stream : Nat → Rand) (stored : w.server.get dir = some (serialize fl))
    (named : ∀ entry ∈ fl, entry.2 ≠ []) (name : List UInt8) (id : UInt64) :
    let found := lookupIn junk name id (handle stream w (.get dir)).1
    found = (.IOERR,id) ∨ (∃ inum, found = (.OK,inum)) ∨ (found = (.NOENT,id) ∧ name ∉ fl.map (·.2)) := by
  rcases get_cases stream stored with lost | ⟨got,bounded⟩
  · rw [lost]
    exact .inl rfl
  · rw [got,lookupIn_sound ⟨named,bounded⟩]
    cases found : fl.find? (·.2 == name) with
    | some entry => exact .inr (.inl ⟨entry.1,rfl⟩)
    | none =>
      refine .inr (.inr ⟨rfl,fun listed => ?_⟩)
      obtain ⟨entry,member,same⟩ := List.mem_map.mp listed
      exact List.find?_eq_none.mp found entry member (beq_iff_eq.mpr same)

theorem run_rand : rand.run (handle stream) w = (stream w.draws,{w with draws:=w.draws+1}) := rfl

theorem run_put (stream : Nat → Rand) (w : World) (id : UInt64) (buf : List UInt8) :
    (ExtentClient.put id buf).run (handle stream) w = (true,{w with server:=w.server.put id buf}) ∨
      (ExtentClient.put id buf).run (handle stream) w = (false,w) := by
  have asked : (ExtentClient.put id buf).run (handle stream) w = handle stream w (.put id buf) := rfl
  rw [asked]
  by_cases fits : Creates.Fits id buf
  · exact .inl (if_pos fits)
  · exact .inr (if_neg fits)

theorem run_writeFile (other : dir ≠ inum) :
    ((writeFile inum).run (handle stream) w).2.server.get dir = w.server.get dir := by
  rw [writeFile,Program.run_bind]
  rcases run_put stream w inum [] with put | lost
  · rw [put]
    exact ExtentServer.put_data_other _ _ other
  · rw [lost]
    rfl

theorem run_writeEntry (stream : Nat → Rand) (w : World) (name : List UInt8) (fl : Filelist) (other : dir ≠ inum) :
    let after := ((writeEntry dir name fl inum).run (handle stream) w).2
    after.server.get dir = w.server.get dir ∨ after.server.get dir = some (serialize (fl ++ [(inum,name)])) := by
  rw [writeEntry,Program.run_bind]
  rcases run_put stream w dir (serialize (fl ++ [(inum,name)])) with put | lost
  · rw [put]
    refine .inr ((run_writeFile other).trans ?_)
    exact ExtentServer.put_data_self _ _ _
  · rw [lost]
    exact .inl rfl

theorem createfile_cases (junk : Nat → UInt8) (stream : Nat → Rand) (directory : isdir dir = true) (stored : w.server.get dir = some (serialize fl))
    (named : ∀ entry ∈ fl, entry.2 ≠ []) (name : List UInt8) (id : UInt64) :
    let after := ((createfile junk dir name id).run (handle stream) w).2
    after.server.get dir = some (serialize fl) ∨
      ∃ inum, name ∉ fl.map (·.2) ∧ after.server.get dir = some (serialize (fl ++ [(inum,name)])) := by
  rw [createfile,Program.run_bind,run_lookup]
  rcases lookup_cases junk stream stored named name id with failed | ⟨inum,found⟩ | ⟨missing,fresh⟩
  · rw [failed]
    exact .inl stored
  · rw [found]
    exact .inl stored
  · rw [missing]
    simp only [Program.run_bind,run_readdir]
    rcases readdir_cases junk stream stored named [] with failed | ⟨read,_⟩
    · rw [failed]
      exact .inl stored
    · have other : dir ≠ newInum 1 (stream w.draws) := (newInum_ne _ directory).symm
      simp only [read,List.nil_append,Program.run_bind,run_rand]
      rcases run_writeEntry stream {w with draws:=w.draws+1} name fl other with same | grown
      · exact .inl (same.trans stored)
      · exact .inr ⟨_,fresh,grown⟩

theorem run_fuseserverReaddir (fmt : DirentFormat) (directory : isdir dir = true)
    (read : readdirOf junk [] (handle stream w (.get dir)).1 = (.OK,fl)) (size off : UInt64) :
    (fuseserverReaddir fmt junk dir size off).run (handle stream) w =
      ((fill fmt .empty fl).map fun b => .buf (replyBufLimited b off size),w) := by
  rw [fuseserverReaddir,if_pos directory,Program.run_bind,run_readdir,read]
  rfl

end Calls

-- How far a listing has got in a directory that held the entries `before` when
-- it began and holds `fl` now.
structure Progress (fmt : DirentFormat) (dir : UInt64) (before : Filelist) (s : Listing) (fl : Filelist) : Prop where
  stored : s.world.server.get dir = some (serialize fl)
  named : ∀ entry ∈ fl, entry.2 ≠ [] ∧ 0 ∉ entry.2
  grown : before <+: fl
  distinct : (before.map (·.2)).Nodup → (fl.map (·.2)).Nodup
  listed : s.listed <+: fl
  off : s.off.toNat = total fmt s.listed
  ended : s.ended = true → before <+: s.listed

def Label.isPage : Label → Bool
  | .page _ => true
  | .createfile _ _ => false

section Runs
variable {fmt : DirentFormat} {junk : Nat → UInt8} {stream : Nat → Rand} {dir : UInt64} {s s' : Listing} {before fl : Filelist}
  {w : World} {size : UInt64}

theorem name_bounded (fl : Filelist) (entry : UInt64 × List UInt8) (member : entry ∈ fl) : entry.2.length ≤ (serialize fl).length := by
  have part := (List.sublist_flatten_of_mem (List.mem_map_of_mem (f:=entryBytes) member)).length_le
  rw [entryBytes_length] at part
  rw [serialize_length,List.flatMap_def]
  omega

theorem roomy_reads (progress : Progress fmt dir before s fl) (roomy : Roomy fmt junk stream dir s (.page size)) :
    readdirOf junk [] (handle stream s.world (.get dir)).1 = (.OK,fl) ∧ (serialize fl).length + 1 < 2^32 ∧
      ∀ entry ∈ fl[s.listed.length]?, fmt.size entry.2.length ≤ size.toNat := by
  obtain ⟨ok,room⟩ := roomy
  rw [run_readdir] at ok room
  have names : ∀ entry ∈ fl, entry.2 ≠ [] := fun entry member => (progress.named entry member).1
  rcases readdir_cases junk stream progress.stored names [] with failed | ⟨read,bounded⟩
  · rw [failed] at ok
    cases ok
  · rw [List.nil_append] at read
    rw [read] at room
    exact ⟨read,bounded,room⟩

theorem page_progress (directory : isdir dir = true) (progress : Progress fmt dir before s fl)
    (roomy : Roomy fmt junk stream dir s (.page size)) (taken : step fmt junk stream dir s (.page size) = some s') :
    Progress fmt dir before s' fl ∧ s.ended = false ∧ s.listed.length + 1 ≤ s'.listed.length + s'.ended.toNat := by
  obtain ⟨read,bounded,room⟩ := roomy_reads progress roomy
  cases running : s.ended with
  | true =>
    rw [step,if_pos running] at taken
    cases taken
  | false =>
    rw [step,if_neg (by simp [running]),run_fuseserverReaddir fmt directory read] at taken
    cases filled : fill fmt .empty fl with
    | none =>
      rw [filled] at taken
      cases taken
    | some b =>
      rw [filled] at taken
      have made : consume fmt s (replyBufLimited b s.off size) = s' := Option.some.inj taken
      obtain ⟨rest,split⟩ := progress.listed
      have named : ∀ entry ∈ fl, Named entry.2 := fun entry member => by
        have valid := progress.named entry member
        have small := name_bounded fl entry member
        exact ⟨valid.1,valid.2,by omega⟩
      have whole : b.p = fmt.bytes (laid fmt 0 fl) := fill_laid (fun entry member => (progress.named entry member).2) filled
      have next : ∀ entry ∈ rest.head?, fmt.size entry.2.length ≤ size.toNat := fun entry here => by
        apply room entry
        rw [← split,List.getElem?_append_right (Nat.le_refl _),Nat.sub_self,← List.head?_eq_getElem?]
        exact here
      rcases consume_page fmt s named whole split.symm progress.off next with ⟨rfl,result⟩ | ⟨got,some_,part,result⟩
      · rw [result] at made
        subst made
        rw [List.append_nil] at split
        exact ⟨{progress with ended:=fun _ => split ▸ progress.grown},rfl,Nat.le_refl _⟩
      · rw [result] at made
        subst made
        have further : s.listed ++ got <+: fl := by
          rw [← split]
          exact (List.prefix_append_right_inj s.listed).mpr part
        refine ⟨{progress with listed:=further,off:=?_,ended:=fun wrong => ?_},rfl,?_⟩
        · obtain ⟨left,parts⟩ := further
          have counted := b.counted
          rw [whole,laid_length,← parts,total_append] at counted
          rw [UInt64.toNat_ofNat']
          exact Nat.mod_eq_of_lt (by omega)
        · rw [running] at wrong
          cases wrong
        · have positive := List.length_pos_iff.mpr some_
          simp only [List.length_append]
          omega

theorem page_returns (directory : isdir dir = true) (progress : Progress fmt dir before s fl) (running : s.ended = false)
    (memory : total fmt fl < 2^64) (roomy : Roomy fmt junk stream dir s (.page size)) :
    (step fmt junk stream dir s (.page size)).isSome := by
  obtain ⟨read,_,_⟩ := roomy_reads progress roomy
  have room : Dirbuf.empty.p.length + total fmt fl < 2^64 := by
    rw [Dirbuf.empty,List.length_nil]
    omega
  obtain ⟨b,filled⟩ := fill_some fl .empty (fun entry member => (progress.named entry member).2) room
  rw [step,if_neg (by simp [running]),run_fuseserverReaddir fmt directory read,filled]
  rfl

theorem createfile_progress (directory : isdir dir = true) (progress : Progress fmt dir before s fl) (name : Name) (id : UInt64)
    (taken : step fmt junk stream dir s (.createfile name id) = some s') :
    (∃ fl', Progress fmt dir before s' fl') ∧ s'.listed = s.listed ∧ s'.ended = s.ended := by
  cases Option.some.inj taken
  refine ⟨?_,rfl,rfl⟩
  have names : ∀ entry ∈ fl, entry.2 ≠ [] := fun entry member => (progress.named entry member).1
  rcases createfile_cases junk stream directory progress.stored names name.1 id with same | ⟨inum,fresh,grown⟩
  · exact ⟨fl,{progress with stored:=same}⟩
  · have longer : fl <+: fl ++ [(inum,name.1)] := List.prefix_append _ _
    refine ⟨fl ++ [(inum,name.1)],grown,fun entry member => ?_,progress.grown.trans longer,fun once => ?_,
      progress.listed.trans longer,progress.off,progress.ended⟩
    · rcases List.mem_append.mp member with old | new
      · exact progress.named entry old
      · rw [List.mem_singleton.mp new]
        exact name.2
    · rw [List.map_append,List.nodup_append]
      refine ⟨progress.distinct once,by simp,fun old listed new last => ?_⟩
      rw [List.mem_singleton.mp last]
      rintro rfl
      exact fresh listed

theorem run_progress (directory : isdir dir = true) (stored : w.server.get dir = some (serialize before))
    (named : ∀ entry ∈ before, entry.2 ≠ [] ∧ 0 ∉ entry.2)
    (path : Runs (step fmt junk stream dir) (Roomy fmt junk stream dir) (start w) labels s) :
    ∃ fl, Progress fmt dir before s fl ∧ (labels.all Label.isPage = true → fl = before) ∧
      labels.countP Label.isPage ≤ s.listed.length + s.ended.toNat := by
  induction path with
  | nil =>
    refine ⟨before,⟨stored,named,List.prefix_refl _,id,List.nil_prefix,rfl,fun wrong => ?_⟩,fun _ => rfl,Nat.zero_le _⟩
    cases wrong
  | @snoc labels mid label next prior allowed taken ih =>
    obtain ⟨fl,progress,same,pages⟩ := ih
    rw [List.all_append,List.countP_append]
    cases label with
    | page size =>
      obtain ⟨after,running,more⟩ := page_progress directory progress allowed taken
      refine ⟨fl,after,fun all => same (Bool.and_eq_true_iff.mp all).1,?_⟩
      rw [running] at pages
      have one : List.countP Label.isPage [.page size] = 1 := rfl
      rw [one]
      exact Nat.le_trans (Nat.add_le_add_right pages 1) more
    | createfile name id =>
      obtain ⟨⟨fl',after⟩,listed,ended⟩ := createfile_progress directory progress name id taken
      refine ⟨fl',after,fun all => ?_,?_⟩
      · cases (Bool.and_eq_true_iff.mp all).2
      · rw [listed,ended]
        exact pages

-- In every run of pages and createfiles, with any page sizes that have room for
-- the next entry: what is listed are the first entries of the directory, each
-- once and in order, and all that were there at the start when the empty reply
-- has come; it comes as soon as more pages were asked for than are listed, and
-- until then every further call returns.
theorem entries_listed_once (fmt : DirentFormat) (directory : isdir dir = true) (stored : w.server.get dir = some (serialize before))
    (named : ∀ entry ∈ before, entry.2 ≠ [] ∧ 0 ∉ entry.2)
    (path : Runs (step fmt junk stream dir) (Roomy fmt junk stream dir) (start w) labels s) :
    ∃ added, s.world.server.get dir = some (serialize (before ++ added)) ∧ s.listed <+: before ++ added ∧
      (s.ended = true → before <+: s.listed) ∧
      ((before.map (·.2)).Nodup → (s.listed.map (·.2)).Nodup) ∧
      (labels.all Label.isPage = true → s.ended = true → s.listed = before) ∧
      (s.listed.length < labels.countP Label.isPage → s.ended = true) ∧
      (s.ended = false → total fmt (before ++ added) < 2^64 → ∀ size, Roomy fmt junk stream dir s (.page size) →
        (step fmt junk stream dir s (.page size)).isSome) := by
  obtain ⟨fl,progress,same,pages⟩ := run_progress directory stored named path
  obtain ⟨added,rfl⟩ := progress.grown
  refine ⟨added,progress.stored,progress.listed,progress.ended,fun once => ?_,fun all ended => ?_,fun many => ?_,
    fun running memory size roomy => page_returns directory progress running memory roomy⟩
  · exact (progress.distinct once).sublist (progress.listed.map _).sublist
  · have whole := progress.listed
    rw [same all] at whole
    exact whole.eq_of_length_le (progress.ended ended).length_le
  · cases running : s.ended with
    | true => rfl
    | false =>
      rw [running] at pages
      exact absurd pages (by simpa using many)

end Runs

def silent : Nat → UInt8 := fun _ => 0

def twoFiles : World := ⟨ExtentServer.initial.put 1 (serialize [(0x80000001,[97]),(0x80000002,[98,99])]),0⟩

-- Pages for one entry each, with a createfile after the first of them.
def paging : List Label := [.page 32,.createfile ⟨[100],by decide⟩ 0,.page 40,.page 32,.page 4096]

theorem growing_directory_listed : ∃ s added,
    Runs (step fuseDirent silent (fun _ => .wrap 7) 1) (Roomy fuseDirent silent (fun _ => .wrap 7) 1) (start twoFiles) paging s ∧
      s.ended = true ∧ [(0x80000001,[97]),(0x80000002,[98,99])] <+: s.listed ∧
      s.listed <+: [(0x80000001,[97]),(0x80000002,[98,99])] ++ added ∧ (s.listed.map (·.2)).Nodup := by
  have ran : (exec (guarded (step fuseDirent silent (fun _ => .wrap 7) 1) (Roomy fuseDirent silent (fun _ => .wrap 7) 1))
      (start twoFiles) paging).map Listing.ended = some true := by decide +kernel
  obtain ⟨s,path,ended⟩ := guarded_observed ran
  have stored : twoFiles.server.get 1 = some (serialize [(0x80000001,[97]),(0x80000002,[98,99])]) := rfl
  obtain ⟨added,_,listed,whole,once,_⟩ := entries_listed_once fuseDirent (by decide) stored (by decide) path
  exact ⟨s,added,path,ended,whole ended,listed,once (by decide)⟩

end YfsLab.Readdir