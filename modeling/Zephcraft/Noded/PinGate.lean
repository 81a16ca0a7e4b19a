import Zephcraft.Foundations.Run
import Zephcraft.Foundations.Word

/-!
# Noded/PinGate — pins that are admitted at the same time

`pin_admits` loads the footprint, reads the budget, and adds to the footprint if the sum it has
worked out is within: three steps, and other calls may take theirs in between.
-/

namespace Zephcraft.Noded

open Run

/-- A call of `pin_admits` under way. -/
inductive PinCall where
  | loaded (bytes pinned : U64)
  | budgeted (bytes pinned budget : U64)

/-- The footprint that the call has loaded. -/
def PinCall.pinned : PinCall → U64
  | .loaded _ pinned | .budgeted _ pinned _ => pinned

/-- The budget's atomics and the calls. -/
structure PinGate where
  pinned : U64
  totalEarned : U64
  storageGrant : U64
  calls : ℕ → Option PinCall

inductive PinEvent where
  /-- What was earned has grown. -/
  | earn (bytes : U64)
  | load (id : ℕ) (bytes : U64)
  | budget (id : ℕ)
  | add (id : ℕ)

namespace PinGate

def new (totalEarned storageGrant : U64) : PinGate := ⟨0, totalEarned, storageGrant, fun _ => none⟩

variable (s : PinGate)

/-- Add, if the sum of what was loaded is within the budget; an atomic `fetch_add` wraps. -/
def pinAdmits (id : ℕ) (bytes pinned budget : U64) : PinGate :=
  { s with
    pinned := if pinned.satAdd bytes ≤ budget then s.pinned + bytes else s.pinned
    calls := Function.update s.calls id none }

def step (s : PinGate) : PinEvent → PinGate
  | .earn bytes => { s with totalEarned := s.totalEarned.satAdd bytes }
  | .load id bytes =>
    match s.calls id with
    | none => { s with calls := Function.update s.calls id (some (.loaded bytes s.pinned)) }
    | some _ => s
  | .budget id =>
    match s.calls id with
    | some (.loaded bytes pinned) =>
      { s with
        calls :=
          Function.update s.calls id
            (some (.budgeted bytes pinned (s.totalEarned.satAdd s.storageGrant))) }
    | _ => s
  | .add id =>
    match s.calls id with
    | some (.budgeted bytes pinned budget) => s.pinAdmits id bytes pinned budget
    | _ => s

/-- **The footprint is within the standing.** -/
def Within (s : PinGate) : Prop := s.pinned.val ≤ s.totalEarned.val + s.storageGrant.val
deriving Decidable

/-- When a call adds, the footprint is still what it loaded: no other call has added in between. -/
def Alone (s : PinGate) : PinEvent → Prop
  | .add id => ∀ call ∈ s.calls id, call.pinned = s.pinned
  | .earn _ | .load _ _ | .budget _ => True

instance (s : PinGate) : DecidablePred s.Alone
  | .add id => inferInstanceAs (Decidable (∀ call ∈ s.calls id, call.pinned = s.pinned))
  | .earn _ | .load _ _ | .budget _ => isTrue trivial

/-- The footprint is within the standing, and so are the budgets that were read. -/
structure Sound (s : PinGate) : Prop where
  within : s.Within
  budget : ∀ id bytes pinned budget, s.calls id = some (.budgeted bytes pinned budget) →
    budget.val ≤ s.totalEarned.val + s.storageGrant.val

variable {s} {id : ℕ} {bytes pinned budget : U64}

theorem Sound.update (h : s.Sound) {call : Option PinCall} (hc : ∀ bytes pinned budget,
      call = some (.budgeted bytes pinned budget)
        → budget.val ≤ s.totalEarned.val + s.storageGrant.val) :
    Sound { s with calls := Function.update s.calls id call } := by
  refine ⟨h.within, fun id' bytes pinned budget hb => ?_⟩
  change Function.update s.calls id call id' = _ at hb
  rw [Function.update_apply] at hb
  split at hb
  · exact hc _ _ _ hb
  · exact h.budget id' _ _ _ hb

/-- **A call that adds to what it loaded stays within**: had the sum wrapped, the budget would be
all there is. -/
theorem Sound.pinAdmits (h : s.Sound) (hc : s.calls id = some (.budgeted bytes s.pinned budget)) :
    (s.pinAdmits id bytes s.pinned budget).Sound := by
  have hb := h.budget id _ _ _ hc
  have hn : Sound { s with calls := Function.update s.calls id none } := h.update (by simp)
  refine ⟨?_, hn.budget⟩
  rw [Within, PinGate.pinAdmits]
  dsimp only
  split
  · next hle =>
    have hsum : (s.pinned + bytes).val ≤ (s.pinned.satAdd bytes).val := by
      rw [Word.val_satAdd, Fin.val_add]
      exact le_min (Nat.mod_le _ _) (Nat.le_sub_one_of_lt (Nat.mod_lt _ (by norm_num)))
    exact (hsum.trans hle).trans hb
  · exact h.within

theorem Sound.step (h : s.Sound) {e : PinEvent} (hc : s.Alone e) : (s.step e).Sound := by
  cases e with
  | earn bytes =>
    have hg : s.totalEarned.val ≤ (s.totalEarned.satAdd bytes).val := by
      have := s.totalEarned.isLt
      rw [Word.val_satAdd]
      omega
    refine ⟨h.within.trans (Nat.add_le_add_right hg _), fun id b p budget hb => ?_⟩
    exact (h.budget id b p budget hb).trans (Nat.add_le_add_right hg _)
  | load id bytes =>
    rw [PinGate.step]
    split
    · exact h.update (by simp)
    · exact h
  | budget id =>
    rw [PinGate.step]
    split
    · refine h.update fun _ _ _ heq => ?_
      cases heq
      rw [Word.val_satAdd]
      exact Nat.min_le_left _ _
    · exact h
  | add id =>
    rw [PinGate.step]
    split
    · next bytes pinned budget hca =>
      obtain rfl : pinned = s.pinned := hc _ hca
      exact h.pinAdmits hca
    · exact h

/-- **The footprint stays within the standing**, over every interleaving in which no call adds
between the load and the add of another. -/
theorem pinned_within_of_alone (totalEarned storageGrant : U64) (events : List PinEvent)
    (halone : EachStep PinGate.step (new totalEarned storageGrant) Alone events) :
    EachState PinGate.step (new totalEarned storageGrant) Within events :=
  eachState_of_invariant (I := Sound) ⟨Nat.zero_le _, fun _ _ _ _ h => nomatch h⟩ (fun _ _ h hc =>
    h.step hc) (fun _ h => h.within) halone

theorem pinned_within_of_alone_inTurn :
    EachState PinGate.step (new 0 10) Within
      [.load 1 6, .budget 1, .add 1, .load 2 6, .earn 2, .budget 2, .add 2] :=
  pinned_within_of_alone 0 10 _ (by decide +kernel)

/-- **Two calls pin the grant each**: both load the footprint before either adds to it. -/
theorem two_pins_exceed :
    (run PinGate.step (new 0 10) [.load 1 10, .load 2 10, .budget 1, .budget 2, .add 1,
      .add 2]).pinned = 20 ∧ ¬ (run PinGate.step (new 0 10) [.load 1 10, .load 2 10, .budget 1,
        .budget 2, .add 1, .add 2]).Within := by
  decide +kernel

end PinGate

end Zephcraft.Noded
