import YfsLab.Lib.Program
import YfsLab.Lib.Runs

-- Threads that work on one object: each of them runs the programs of its tasks
-- one after another, and a query with its answer is one step of the whole.
namespace Interference

structure Pool (ι T S Q : Type) (A : Q → Type) (α : Type) where
  shared : S
  running : ι → Option (T × Program Q A α)
  history : List (ι × T × α)

-- `fate` is what the environment makes of the query.
inductive Label (ι T D : Type) where
  | start (i : ι) (task : T)
  | ask (i : ι) (fate : D)
  | finish (i : ι)
  deriving DecidableEq

section Machine
variable {ι T S Q D α : Type} {A : Q → Type} [DecidableEq ι]

def idle (shared : S) : Pool ι T S Q A α := ⟨shared,fun _ => none,[]⟩

def Pool.set (s : Pool ι T S Q A α) (i : ι) (now : Option (T × Program Q A α)) : Pool ι T S Q A α :=
  {s with running:=fun j => if j = i then now else s.running j}

variable (respond : T → S → (q : Q) → D → Option (A q × S)) (program : T → Program Q A α)

def step (s : Pool ι T S Q A α) : Label ι T D → Option (Pool ι T S Q A α)
  | .start i task =>
    match s.running i with
    | none => some (s.set i (some (task,program task)))
    | some _ => none
  | .ask i fate =>
    match s.running i with
    | some (task,.ask q next) =>
      (respond task s.shared q fate).map fun answered => {s.set i (some (task,next answered.1)) with shared:=answered.2}
    | _ => none
  | .finish i =>
    match s.running i with
    | some (task,.done a) => some {s.set i none with history:=s.history ++ [(i,task,a)]}
    | _ => none

end Machine

-- What every step keeps of the object: an invariant, and an order in which it
-- moves forward only.
structure Discipline (S : Type) where
  holds : S → Prop
  later : S → S → Prop
  refl : ∀ s, later s s
  trans : ∀ s t u, later s t → later t u → later s u

section Rules
variable {T S Q D α β : Type} {A : Q → Type} {respond : T → S → (q : Q) → D → Option (A q × S)} {d : Discipline S}
  {task : T} {post post' : S → α → Prop} {program : Program Q A α} {s t : S}

-- The rest of a program keeps the discipline from a state on, whatever the
-- others do before each of its steps, and what it returns satisfies `post` then
-- and later.
def Keeps (respond : T → S → (q : Q) → D → Option (A q × S)) (d : Discipline S) (task : T) (post : S → α → Prop) :
    Program Q A α → S → Prop
  | .done a,s => ∀ t, d.later s t → d.holds t → post t a
  | .ask q next,s => ∀ t, d.later s t → d.holds t → ∀ fate answer u, respond task t q fate = some (answer,u) →
      d.holds u ∧ d.later t u ∧ Keeps respond d task post (next answer) u

theorem Keeps.later (keeps : Keeps respond d task post program s) (after : d.later s t) :
    Keeps respond d task post program t := by
  cases program with
  | done a => exact fun u reached holds => keeps u (d.trans s t u after reached) holds
  | ask q next => exact fun u reached holds => keeps u (d.trans s t u after reached) holds

theorem Keeps.weaken (keeps : Keeps respond d task post program s)
    (implied : ∀ t a, d.later s t → d.holds t → post t a → post' t a) : Keeps respond d task post' program s := by
  induction program generalizing s with
  | done a => exact fun t reached holds => implied t a reached holds (keeps t reached holds)
  | ask q next ih =>
    intro t reached holds fate answer u answered
    obtain ⟨kept,forward,rest⟩ := keeps t reached holds fate answer u answered
    refine ⟨kept,forward,ih answer rest fun v a after => ?_⟩
    exact implied v a (d.trans s u v (d.trans s t u reached forward) after)

theorem keeps_query {q : Q} {post : S → A q → Prop}
    (answers : ∀ t, d.later s t → d.holds t → ∀ fate answer u, respond task t q fate = some (answer,u) →
      d.holds u ∧ d.later t u ∧ ∀ v, d.later u v → d.holds v → post v answer) :
    Keeps respond d task post (Program.query q) s := answers

theorem keeps_pure {a : α} (returned : ∀ t, d.later s t → d.holds t → post t a) :
    Keeps respond d task post (pure a : Program Q A α) s := returned

theorem Keeps.bind {rest : α → Program Q A β} {post' : S → β → Prop} (keeps : Keeps respond d task post program s)
    (holds : d.holds s) (next : ∀ t a, d.later s t → d.holds t → post t a → Keeps respond d task post' (rest a) t) :
    Keeps respond d task post' (program >>= rest) s := by
  induction program generalizing s with
  | done a => exact next s a (d.refl s) holds (keeps s (d.refl s) holds)
  | ask q more ih =>
    intro t reached valid fate answer u answered
    obtain ⟨kept,forward,behind⟩ := keeps t reached valid fate answer u answered
    refine ⟨kept,forward,ih answer behind kept fun v a passed valid' => ?_⟩
    exact next v a (d.trans s u v (d.trans s t u reached forward) passed) valid'

theorem Keeps.map {f : α → β} {post' : S → β → Prop} (keeps : Keeps respond d task post program s)
    (implied : ∀ t a, d.holds t → post t a → post' t (f a)) : Keeps respond d task post' (f <$> program) s := by
  induction program generalizing s with
  | done a => exact fun t reached holds => implied t a holds (keeps t reached holds)
  | ask q next ih =>
    intro t reached holds fate answer u answered
    obtain ⟨kept,forward,rest⟩ := keeps t reached holds fate answer u answered
    exact ⟨kept,forward,ih answer rest⟩

theorem Keeps.lift {Q' : Type} {A' : Q' → Type} {larger : T → S → (q : Q') → D → Option (A' q × S)} {embed : Q → Q'}
    {back : (q : Q) → A' (embed q) → A q} (keeps : Keeps respond d task post program s)
    (same : ∀ t q fate answer u, larger task t (embed q) fate = some (answer,u) →
      respond task t q fate = some (back q answer,u)) :
    Keeps larger d task post (program.lift embed back) s := by
  induction program generalizing s with
  | done a => exact keeps
  | ask q next ih =>
    intro t reached holds fate answer u answered
    obtain ⟨kept,forward,rest⟩ := keeps t reached holds fate _ u (same t q fate answer u answered)
    exact ⟨kept,forward,ih _ rest⟩

end Rules

section Runs
variable {ι T S Q D α : Type} {A : Q → Type} [DecidableEq ι] {respond : T → S → (q : Q) → D → Option (A q × S)}
  {program : T → Program Q A α} {d : Discipline S} {post : T → S → α → Prop} {s s' : Pool ι T S Q A α}
  {label : Label ι T D}

structure Kept (respond : T → S → (q : Q) → D → Option (A q × S)) (d : Discipline S) (post : T → S → α → Prop)
    (s : Pool ι T S Q A α) : Prop where
  holds : d.holds s.shared
  running : ∀ i task rest, s.running i = some (task,rest) → Keeps respond d task (post task) rest s.shared
  history : ∀ entry ∈ s.history, ∀ t, d.later s.shared t → d.holds t → post entry.2.1 t entry.2.2

theorem running_set {i j : ι} {now : Option (T × Program Q A α)} {task : T} {rest : Program Q A α}
    (held : (s.set i now).running j = some (task,rest)) :
    (j = i ∧ now = some (task,rest)) ∨ s.running j = some (task,rest) := by
  unfold Pool.set at held
  dsimp only at held
  split at held
  · rename_i same
    exact .inl ⟨same,held⟩
  · exact .inr held

theorem step_kept (sound : ∀ task s, d.holds s → Keeps respond d task (post task) (program task) s)
    (kept : Kept respond d post s) (taken : step respond program s label = some s') : Kept respond d post s' := by
  cases label with
  | start i task =>
    simp only [step] at taken
    split at taken
    · cases Option.some.inj taken
      refine ⟨kept.holds,fun j other rest held => ?_,kept.history⟩
      rcases running_set held with ⟨_,now⟩ | before
      · cases Option.some.inj now
        exact sound task s.shared kept.holds
      · exact kept.running j other rest before
    · cases taken
  | ask i fate =>
    simp only [step] at taken
    split at taken
    · rename_i task q next held
      obtain ⟨⟨answer,shared⟩,answered,rfl⟩ := Option.map_eq_some_iff.mp taken
      obtain ⟨holds,forward,behind⟩ :=
        kept.running i task _ held s.shared (d.refl s.shared) kept.holds fate answer shared answered
      refine ⟨holds,fun j other rest there => ?_,fun entry member t after => ?_⟩
      · rcases running_set there with ⟨_,now⟩ | before
        · cases Option.some.inj now
          exact behind
        · exact (kept.running j other rest before).later forward
      · exact kept.history entry member t (d.trans _ _ t forward after)
    · cases taken
  | finish i =>
    simp only [step] at taken
    split at taken
    · rename_i task a held
      cases Option.some.inj taken
      have returned := kept.running i task _ held
      refine ⟨kept.holds,fun j other rest there => ?_,fun entry member => ?_⟩
      · rcases running_set there with ⟨_,now⟩ | before
        · cases now
        · exact kept.running j other rest before
      · rcases List.mem_append.mp member with old | new
        · exact kept.history entry old
        · cases List.mem_singleton.mp new
          exact returned
    · cases taken

-- In every run, for any number of threads: the invariant holds, and what each
-- task returned satisfies its postcondition in the state reached.
theorem runs_keep {ok : Pool ι T S Q A α → Label ι T D → Prop} {shared : S}
    (sound : ∀ task s, d.holds s → Keeps respond d task (post task) (program task) s) (start : d.holds shared)
    (path : Machine.Runs (step respond program) ok (idle shared) labels s) :
    d.holds s.shared ∧ ∀ entry ∈ s.history, post entry.2.1 s.shared entry.2.2 := by
  have kept : Kept respond d post s := by
    induction path with
    | nil =>
      refine ⟨start,fun i task rest held => ?_,fun entry member => ?_⟩
      · cases held
      · cases member
    | snoc _ _ taken ih => exact step_kept sound ih taken
  exact ⟨kept.holds,fun entry member => kept.history entry member s.shared (d.refl _) kept.holds⟩

end Runs
end Interference
