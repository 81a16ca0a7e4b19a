import Zephcraft.Foundations.Word

/-!
# Foundations/Mutex — a lock that a panic poisons

A `Mutex` owns a value; a critical section takes the value and gives it back. A section that panics
leaves the lock **poisoned**, and from then on every `lock().expect(..)` panics in turn.
-/

/-- How a call under the lock fails. -/
inductive Fault where
  | panicked (p : Panic)
  | poisoned
deriving DecidableEq, Repr

/-- A lock, the value it owns, and whether a panic has poisoned it. -/
structure Mutex (α : Type*) where
  value : α
  poisoned : Bool := false

namespace Mutex

variable {α β : Type*} {m : Mutex α}

/-- A critical section that may write the value. One that panics leaves the value it found. -/
def withLock (m : Mutex α) (f : α → Except Panic (α × β)) : Mutex α × Except Fault β :=
  if m.poisoned then (m, .error .poisoned)
  else match f m.value with
    | .ok (a, b) => ({ m with value := a }, .ok b)
    | .error p => ({ m with poisoned := true }, .error (.panicked p))

def read (m : Mutex α) (f : α → Except Panic β) : Mutex α × Except Fault β :=
  m.withLock fun a => (f a).map fun b => (a, b)

/-- A critical section that cannot panic. -/
def modify (m : Mutex α) (f : α → α × β) : Mutex α × Except Fault β :=
  m.withLock fun a => .ok (f a)

theorem withLock_of_poisoned (h : m.poisoned = true) (f : α → Except Panic (α × β)) :
    m.withLock f = (m, .error .poisoned) := by
  rw [withLock, if_pos h]

theorem exists_withLock_eq_ok {f : α → Except Panic (α × β)} :
    (∃ b, (m.withLock f).2 = .ok b) ↔ m.poisoned = false ∧ ∃ r, f m.value = .ok r := by
  unfold withLock
  cases m.poisoned <;> cases f m.value <;> simp

theorem exists_read_eq_ok {f : α → Except Panic β} :
    (∃ b, (m.read f).2 = .ok b) ↔ m.poisoned = false ∧ ∃ b, f m.value = .ok b := by
  rw [read, exists_withLock_eq_ok]
  cases f m.value <;> simp [Except.map]

/-! ## What a section leaves behind -/

@[simp] theorem value_read (m : Mutex α) (f : α → Except Panic β) :
    (m.read f).1.value = m.value := by
  unfold read withLock
  split
  · rfl
  · cases hf : f m.value <;> simp [Except.map, hf]

theorem poisoned_read (m : Mutex α) (f : α → Except Panic β) :
    (m.read f).1.poisoned = false ↔ m.poisoned = false ∧ ∃ b, f m.value = .ok b := by
  unfold read withLock
  cases h : m.poisoned with
  | true => simp [h]
  | false => cases hf : f m.value <;> simp [Except.map, hf]

@[simp] theorem read_ok (m : Mutex α) (f : α → β) : (m.read fun a => .ok (f a)).1 = m := by
  cases m with
  | mk value poisoned => cases poisoned <;> rfl

@[simp] theorem modify_same (m : Mutex α) (f : α → β) : (m.modify fun a => (a, f a)).1 = m := by
  cases m with
  | mk value poisoned => cases poisoned <;> rfl

theorem modify_congr {γ : Type*} {f : α → α × β} {g : α → α × γ} (h : ∀ a, (f a).1 = (g a).1)
    (m : Mutex α) : (m.modify f).1 = (m.modify g).1 := by
  unfold modify withLock
  split
  · rfl
  · simp [h]

@[simp] theorem poisoned_modify (m : Mutex α) (f : α → α × β) :
    (m.modify f).1.poisoned = m.poisoned := by
  unfold modify withLock
  cases h : m.poisoned <;> simp [h]

theorem value_modify (h : m.poisoned = false) (f : α → α × β) :
    (m.modify f).1.value = (f m.value).1 := by
  simp [modify, withLock, h]

end Mutex

/-! ## Calls

A method of a service that owns locks and counters: it returns a value or fails, and leaves a state
behind either way. -/

/-- A call on a state `σ`. -/
abbrev LockedCall (σ : Type) := ExceptT Fault (StateM σ)

namespace LockedCall

variable {σ α β : Type}

/-- Run a call: its outcome, and the state it leaves. -/
def exec (c : LockedCall σ α) (s : σ) : Except Fault α × σ := c.run.run s

/-- A critical section on a lock of the state. -/
def locked {γ : Type} (lock : σ → Mutex γ) (store : σ → Mutex γ → σ)
    (f : Mutex γ → Mutex γ × Except Fault α) : LockedCall σ α :=
  ExceptT.mk fun s => ((f (lock s)).2, store s (f (lock s)).1)

def Returns (c : LockedCall σ α) (s : σ) : Prop := ∃ a, (c.exec s).1 = .ok a

@[simp] theorem exec_pure (a : α) (s : σ) : exec (pure a) s = (.ok a, s) := rfl

@[simp] theorem exec_get (s : σ) : exec get s = (.ok s, s) := rfl

@[simp] theorem exec_modify (f : σ → σ) (s : σ) : exec (modify f) s = (.ok (), f s) := rfl

@[simp] theorem exec_locked {γ : Type} (lock : σ → Mutex γ) (store : σ → Mutex γ → σ)
    (f : Mutex γ → Mutex γ × Except Fault α) (s : σ) :
    exec (locked lock store f) s = ((f (lock s)).2, store s (f (lock s)).1) := rfl

@[simp] theorem exec_map (f : β → α) (c : LockedCall σ β) (s : σ) :
    exec (f <$> c) s = ((c.exec s).1.map f, (c.exec s).2) := by
  unfold exec
  rw [ExceptT.run_map, StateT.run_map]
  rcases c.run.run s with ⟨_ | _, _⟩ <;> rfl

/-- **One call after another**: the second starts where the first left the state, if it returned. -/
theorem exec_bind (c : LockedCall σ β) (k : β → LockedCall σ α) (s : σ) :
    exec (c >>= k) s = match c.exec s with
      | (.ok b, s') => (k b).exec s'
      | (.error e, s') => (.error e, s') := by
  unfold exec
  rw [ExceptT.run_bind, StateT.run_bind]
  rcases c.run.run s with ⟨_ | _, _⟩ <;> rfl

/-! ### Frames -/

/-- The call leaves what `view` shows of the state as it was, whether or not it returns. -/
def Keeps {γ : Type} (view : σ → γ) (c : LockedCall σ α) : Prop := ∀ s, view (c.exec s).2 = view s

variable {γ : Type} {view : σ → γ}

theorem keeps_pure (a : α) : Keeps view (pure a : LockedCall σ α) := fun _ => rfl

theorem keeps_get : Keeps view (get : LockedCall σ σ) := fun _ => rfl

theorem Keeps.bind {c : LockedCall σ β} {k : β → LockedCall σ α} (hc : Keeps view c)
    (hk : ∀ b, Keeps view (k b)) : Keeps view (c >>= k) := by
  intro s
  have hs := hc s
  rw [exec_bind]
  rcases he : c.exec s with ⟨_ | b, s'⟩ <;> rw [he] at hs
  · exact hs
  · exact (hk b s').trans hs

theorem Keeps.ite {p : Prop} [Decidable p] {c d : LockedCall σ α} (hc : Keeps view c)
    (hd : Keeps view d) :
    Keeps view (if p then c else d) := by
  split <;> assumption

end LockedCall
