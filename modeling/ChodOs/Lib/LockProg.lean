/-
Programs that take and give back locks between atomic pieces of work. A
program may be run to its end at once (`run`, with the locks it asks for on
the way, `locks`), or one step at a time by whoever holds its continuation.
-/
import Mathlib.Data.List.Basic

namespace LockProg

/-- A program over a state `σ` and locks `Λ`. -/
inductive Prog (Λ σ α : Type) : Type
  | ret (a : α)
  | lock (l : Λ) (p : Prog Λ σ α)
  | unlock (l : Λ) (p : Prog Λ σ α)
  /-- A piece of work, which goes on from the state it found. `none`: it
  waits, or stops for good. -/
  | act (f : σ → Option σ) (p : σ → Prog Λ σ α)

namespace Prog

variable {Λ σ α β : Type}

def bind : Prog Λ σ α → (α → Prog Λ σ β) → Prog Λ σ β
  | ret a, k => k a
  | lock l p, k => lock l (p.bind k)
  | unlock l p, k => unlock l (p.bind k)
  | act f p, k => act f fun s => (p s).bind k

instance : Monad (Prog Λ σ) where
  pure := ret
  bind := bind

/-- Look at the state. -/
def peek (f : σ → α) : Prog Λ σ α := act some fun s => ret (f s)

/-- Change the state. -/
def update (f : σ → σ) : Prog Λ σ Unit := act (fun s => some (f s)) fun _ => ret ()

/-- Change the state and return something. -/
def attempt [Inhabited α] (f : σ → Option (α × σ)) : Prog Λ σ α :=
  act (fun s => (f s).map (·.2)) fun s => ret (((f s).map (·.1)).getD default)

/-- Go on when the state allows it. -/
def await (f : σ → Bool) : Prog Λ σ Unit := act (fun s => if f s then some s else none) fun _ => ret ()

/-- A guard's scope. -/
def locked (l : Λ) (p : Prog Λ σ α) : Prog Λ σ α := lock l (p.bind fun a => unlock l (ret a))

/-! ## To the end at once -/

/-- The result and the state at the end. -/
def run : Prog Λ σ α → σ → Option (α × σ)
  | ret a, s => some (a, s)
  | lock _ p, s => p.run s
  | unlock _ p, s => p.run s
  | act f p, s => (f s).bind fun s' => (p s).run s'

/-- The locks asked for, in order. -/
def locks : Prog Λ σ α → σ → List Λ
  | ret _, _ => []
  | lock l p, s => l :: p.locks s
  | unlock _ p, s => p.locks s
  | act f p, s => (f s).elim [] fun s' => (p s).locks s'

@[simp] theorem run_pure (a : α) (s : σ) : (pure a : Prog Λ σ α).run s = some (a, s) := rfl
@[simp] theorem locks_pure (a : α) (s : σ) : (pure a : Prog Λ σ α).locks s = [] := rfl

@[simp] theorem run_bind (p : Prog Λ σ α) (k : α → Prog Λ σ β) (s : σ) :
    (p >>= k).run s = (p.run s).bind fun r => (k r.1).run r.2 := by
  have key : (p.bind k).run s = (p.run s).bind fun r => (k r.1).run r.2 := by
    induction p generalizing s with
    | ret a => rfl
    | lock l p ih => exact ih s
    | unlock l p ih => exact ih s
    | act f p ih =>
      simp only [bind, run]
      cases f s with
      | none => rfl
      | some s' => exact ih s s'
  exact key

@[simp] theorem locks_bind (p : Prog Λ σ α) (k : α → Prog Λ σ β) (s : σ) :
    (p >>= k).locks s = p.locks s ++ (p.run s).elim [] fun r => (k r.1).locks r.2 := by
  have key : (p.bind k).locks s = p.locks s ++ (p.run s).elim [] fun r => (k r.1).locks r.2 := by
    induction p generalizing s with
    | ret a => rfl
    | lock l p ih => simp only [bind, locks, run, ih s, List.cons_append]
    | unlock l p ih => exact ih s
    | act f p ih =>
      simp only [bind, locks, run]
      cases f s with
      | none => rfl
      | some s' => exact ih s s'
  exact key

@[simp] theorem run_peek (f : σ → α) (s : σ) : (peek f : Prog Λ σ α).run s = some (f s, s) := rfl
@[simp] theorem locks_peek (f : σ → α) (s : σ) : (peek f : Prog Λ σ α).locks s = [] := rfl
@[simp] theorem run_update (f : σ → σ) (s : σ) : (update f : Prog Λ σ Unit).run s = some ((), f s) := rfl
@[simp] theorem locks_update (f : σ → σ) (s : σ) : (update f : Prog Λ σ Unit).locks s = [] := rfl

@[simp] theorem run_attempt [Inhabited α] (f : σ → Option (α × σ)) (s : σ) :
    (attempt f : Prog Λ σ α).run s = f s := by
  cases h : f s <;> simp [attempt, run, h]

@[simp] theorem locks_attempt [Inhabited α] (f : σ → Option (α × σ)) (s : σ) :
    (attempt f : Prog Λ σ α).locks s = [] := by
  cases h : f s <;> simp [attempt, locks, h]

@[simp] theorem run_await (f : σ → Bool) (s : σ) :
    (await f : Prog Λ σ Unit).run s = if f s then some ((), s) else none := by
  simp only [await, run]
  split <;> rfl

@[simp] theorem run_locked (l : Λ) (p : Prog Λ σ α) (s : σ) : (locked l p).run s = p.run s := by
  have h := run_bind p (fun a => (unlock l (ret a) : Prog Λ σ α)) s
  refine h.trans ?_
  cases p.run s <;> rfl

@[simp] theorem locks_locked (l : Λ) (p : Prog Λ σ α) (s : σ) : (locked l p).locks s = l :: p.locks s := by
  have h := locks_bind p (fun a => (unlock l (ret a) : Prog Λ σ α)) s
  refine congrArg (l :: ·) (h.trans ?_)
  cases p.run s <;> simp [locks]

/-! ## Locks never taken -/

/-- The program never asks for the lock. -/
def Avoids (l : Λ) : Prog Λ σ α → Prop
  | ret _ => True
  | lock l' p => l' ≠ l ∧ p.Avoids l
  | unlock _ p => p.Avoids l
  | act _ p => ∀ s, (p s).Avoids l

theorem Avoids.bind {l : Λ} {p : Prog Λ σ α} {k : α → Prog Λ σ β} (hp : p.Avoids l) (hk : ∀ a, (k a).Avoids l) :
    (p >>= k).Avoids l := by
  have key : (p.bind k).Avoids l := by
    induction p with
    | ret a => exact hk a
    | lock l' p ih => exact ⟨hp.1, ih hp.2⟩
    | unlock l' p ih => exact ih hp
    | act f p ih => exact fun s => ih s (hp s)
  exact key

theorem Avoids.locked {l l' : Λ} {p : Prog Λ σ α} (hne : l' ≠ l) (hp : p.Avoids l) : (locked l' p).Avoids l :=
  ⟨hne, hp.bind fun _ => trivial⟩

theorem Avoids.pure {l : Λ} (a : α) : (pure a : Prog Λ σ α).Avoids l := trivial
theorem Avoids.peek {l : Λ} (f : σ → α) : (peek f : Prog Λ σ α).Avoids l := fun _ => trivial
theorem Avoids.update {l : Λ} (f : σ → σ) : (update f : Prog Λ σ Unit).Avoids l := fun _ => trivial
theorem Avoids.attempt {l : Λ} [Inhabited α] (f : σ → Option (α × σ)) : (attempt f : Prog Λ σ α).Avoids l :=
  fun _ => trivial
theorem Avoids.await {l : Λ} (f : σ → Bool) : (await f : Prog Λ σ Unit).Avoids l := fun _ => trivial

end Prog

end LockProg
