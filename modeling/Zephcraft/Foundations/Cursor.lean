import Zephcraft.Foundations.Run

/-!
# Foundations/Cursor — workers that share a list of slots

Workers take slots off a list with a cursor they share, each the next one whenever it is free. A
slot serves a worker, or sends it back for the next one, or sends it away; a worker that finds no
slot left goes away too. The workers take their steps in any order.
-/

namespace Cursor

open Run List Finset Function

/-- Free, at a slot, or gone — served or not. -/
inductive Worker where
  | free
  | atSlot (i : ℕ)
  | gone (served : Bool)
deriving DecidableEq

structure State where
  cursor : ℕ
  worker : ℕ → Worker

variable {α : Type*} (plan : List α) (serve : α → Option Bool) (n : ℕ)

/-- All `n` workers are free. -/
def start : State := ⟨0, fun _ => .free⟩

/-- The next step of a worker; `serve` is `none` for a slot that sends it back. -/
def advance (s : State) (w : ℕ) : State :=
  match s.worker w with
  | .free =>
    ⟨s.cursor + 1, Function.update s.worker w (if s.cursor < plan.length then .atSlot s.cursor
      else .gone false)⟩
  | .atSlot i =>
    { s with worker := Function.update s.worker w (((plan[i]?.bind serve).map .gone).getD .free) }
  | .gone _ => s

/-- The workers are those numbered below `n`. -/
def step (s : State) (w : ℕ) : State := if w < n then advance plan serve s w else s

def served (s : State) : ℕ := ((List.range n).filter fun w => s.worker w = .gone true).length

variable {plan serve n}

/-- What is known at any time: slots that have been taken are looked at, or did not serve; and those
who were served were so at a slot. -/
structure Sound (plan : List α) (serve : α → Option Bool) (n : ℕ) (s : State) : Prop where
  taken : ∀ i a, i < s.cursor → plan[i]? = some a → serve a = some true →
    (∃ w < n, s.worker w = .atSlot i) ∨ ∃ w < n, s.worker w = .gone true
  at_taken : ∀ w i, s.worker w = .atSlot i → i < plan.length
  at_slot : ∀ w, s.worker w = .gone true → ∃ a ∈ plan, serve a = some true
  left : ∀ w, s.worker w = .gone false → (∀ a ∈ plan, serve a ≠ some false) → plan.length ≤ s.cursor

theorem sound_start : Sound plan serve n start :=
  ⟨fun _ _ h => absurd h (Nat.not_lt_zero _), fun _ _ h => by simp [start] at h, fun _ h =>
    by simp [start] at h,
    fun _ h => by simp [start] at h⟩

theorem Sound.claim {s : State} (h : Sound plan serve n s) {w : ℕ} (hw : w < n)
    (hf : s.worker w = .free) :
    Sound plan serve n ⟨s.cursor + 1, Function.update s.worker w
      (if s.cursor < plan.length then .atSlot s.cursor else .gone false)⟩ := by
  -- whoever is not free is another one
  have ho : ∀ {v x}, x ≠ .free → s.worker v = x → Function.update s.worker w
      (if s.cursor < plan.length then .atSlot s.cursor else .gone false) v = x := by
    intro v x hx hv
    rw [update_of_ne, hv]
    rintro rfl
    exact hx (hv.symm.trans hf)
  refine ⟨fun i a hi ha hs => ?_, fun v i hv => ?_, fun v hv => ?_, fun v hv hst => ?_⟩
  · rcases Nat.lt_succ_iff_lt_or_eq.mp hi with hi | rfl
    · rcases h.taken i a hi ha hs with ⟨v, hv, hat⟩ | ⟨v, hv, hg⟩
      · exact .inl ⟨v, hv, ho (by simp) hat⟩
      · exact .inr ⟨v, hv, ho (by simp) hg⟩
    · have hlt : s.cursor < plan.length := (List.getElem?_eq_some_iff.mp ha).1
      exact .inl ⟨w, hw, (update_self ..).trans (if_pos hlt)⟩
  · dsimp only at hv
    rcases eq_or_ne v w with rfl | hne
    · rw [update_self] at hv
      split at hv
      · next hlt => exact Worker.atSlot.inj hv ▸ hlt
      · exact absurd hv (by simp)
    · rw [update_of_ne hne] at hv
      exact h.at_taken v i hv
  · dsimp only at hv
    rcases eq_or_ne v w with rfl | hne
    · rw [update_self] at hv
      split at hv <;> exact absurd hv (by simp)
    · rw [update_of_ne hne] at hv
      exact h.at_slot v hv
  · dsimp only at hv
    rcases eq_or_ne v w with rfl | hne
    · rw [update_self] at hv
      split at hv
      · exact absurd hv (by simp)
      · next hge => exact (Nat.le_of_not_lt hge).trans (Nat.le_succ _)
    · rw [update_of_ne hne] at hv
      exact (h.left v hv hst).trans (Nat.le_succ _)

theorem Sound.visit {s : State} (h : Sound plan serve n s) {w i : ℕ} (hw : w < n)
    (hat : s.worker w = .atSlot i) : Sound plan serve n { s with
      worker := Function.update s.worker w (((plan[i]?.bind serve).map .gone).getD .free) } := by
  obtain ⟨a, ha⟩ : ∃ a, plan[i]? = some a := ⟨_, getElem?_eq_getElem (h.at_taken w i hat)⟩
  have hmem : a ∈ plan := mem_of_getElem? ha
  rw [ha, Option.bind_some]
  refine ⟨fun j b hj hb hs => ?_, fun v j hv => ?_, fun v hv => ?_, fun v hv hst => ?_⟩
  · rcases h.taken j b hj hb hs with ⟨v, hv, hatv⟩ | ⟨v, hv, hg⟩
    · rcases eq_or_ne v w with rfl | hne
      · obtain rfl := Worker.atSlot.inj (hatv.symm.trans hat)
        cases hb.symm.trans ha
        exact .inr ⟨v, hv, by dsimp only; rw [update_self, hs]; rfl⟩
      · exact .inl ⟨v, hv, (update_of_ne hne _ _).trans hatv⟩
    · refine .inr ⟨v, hv, (update_of_ne ?_ _ _).trans hg⟩
      rintro rfl
      exact absurd (hg.symm.trans hat) (by simp)
  · dsimp only at hv
    rcases eq_or_ne v w with rfl | hne
    · rw [update_self] at hv
      cases hs : serve a <;> simp [hs] at hv
    · rw [update_of_ne hne] at hv
      exact h.at_taken v j hv
  · dsimp only at hv
    rcases eq_or_ne v w with rfl | hne
    · rw [update_self] at hv
      refine ⟨a, hmem, ?_⟩
      cases hs : serve a <;> simp_all
    · rw [update_of_ne hne] at hv
      exact h.at_slot v hv
  · dsimp only at hv
    rcases eq_or_ne v w with rfl | hne
    · rw [update_self] at hv
      refine absurd ?_ (hst a hmem)
      cases hs : serve a <;> simp_all
    · rw [update_of_ne hne] at hv
      exact h.left v hv hst

theorem Sound.step {s : State} (h : Sound plan serve n s) (w : ℕ) :
    Sound plan serve n (step plan serve n s w) := by
  rw [Cursor.step]
  split
  · next hw =>
    rw [advance]
    cases hs : s.worker w with
    | free => exact h.claim hw hs
    | atSlot i => exact h.visit hw hs
    | gone b => exact h
  · exact h

end Cursor
