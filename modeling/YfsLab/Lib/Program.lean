import Mathlib.Data.List.Basic

-- A program that asks its environment: it has returned, or it waits for the
-- answer to a query. Several programs can then be interleaved query by query,
-- and one program can be run against a handler that answers at once.
inductive Program (Q : Type) (A : Q → Type) (α : Type) where
  | done (a : α)
  | ask (q : Q) (next : A q → Program Q A α)

namespace Program
variable {Q : Type} {A : Q → Type} {α β S : Type}

def bind (program : Program Q A α) (rest : α → Program Q A β) : Program Q A β :=
  match program with
  | done a => rest a
  | ask q next => ask q fun answer => (next answer).bind rest

instance : Monad (Program Q A) where
  pure := done
  bind := bind

def query (q : Q) : Program Q A (A q) := ask q done

@[simp] theorem pure_eq_done (a : α) : (pure a : Program Q A α) = done a := rfl

def run (handle : S → (q : Q) → A q × S) : S → Program Q A α → α × S
  | s,done a => (a,s)
  | s,ask q next => run handle (handle s q).2 (next (handle s q).1)

variable {handle : S → (q : Q) → A q × S}

theorem run_bind (s : S) (program : Program Q A α) (rest : α → Program Q A β) :
    run handle s (program >>= rest) = run handle (run handle s program).2 (rest (run handle s program).1) := by
  induction program generalizing s with
  | done a => rfl
  | ask q next ih => exact ih _ _

theorem run_map (f : α → β) (s : S) (program : Program Q A α) :
    run handle s (f <$> program) = (f (run handle s program).1,(run handle s program).2) :=
  run_bind s program fun a => done (f a)

-- The same program where the queries are some of a larger language.
section Lift
variable {Q' : Type} {A' : Q' → Type} (embed : Q → Q') (back : (q : Q) → A' (embed q) → A q)

def lift : Program Q A α → Program Q' A' α
  | done a => done a
  | ask q next => ask (embed q) fun answer => (next (back q answer)).lift

theorem run_lift {larger : S → (q : Q') → A' q × S}
    (same : ∀ s q, (back q (larger s (embed q)).1,(larger s (embed q)).2) = handle s q) (s : S) (program : Program Q A α) :
    run larger s (lift embed back program) = run handle s program := by
  induction program generalizing s with
  | done a => rfl
  | ask q next ih =>
    have answered := same s q
    simp only [lift,run,← answered]
    exact ih _ _

end Lift
end Program
