import Zephcraft.Foundations.Cursor
import Zephcraft.Obj.Election
import Zephcraft.Store.Serve

/-!
# Obj/Reconcile — repairing a deficit that was measured

`reconcile_cid` asks every live holder how many pieces it has, and if the answers add up to less
than the floor it calls `repair_cid`.
-/

namespace Zephcraft.Obj

open Run Erasure Store List

/-- What `mint_piece` works from. -/
inductive Held where
  /-- The content is held; what is read of it, and its generation. -/
  | content (read : Option Bytes) (k pieceLen : ℕ)
  /-- What `serve_pieces` gives. -/
  | pieces (held : List CodedPiece)

/-- A new piece, if one can be made; `none` while a vector is still being drawn after `rounds`
rounds. -/
def mintPiece (rounds : ℕ) (rng : Rng) : Held → Option (Option CodedPiece)
  | .content none _ _ => some none
  | .content (some content) k pieceLen =>
    (encode rounds (splitSources content k pieceLen) rng).map fun made => made.1.toOption
  | .pieces held => if held.isEmpty then some none else (recode rounds held rng).map fun made =>
    made.1.toOption

/-- A piece can be minted: the sources, or the pieces held, are of one shape. -/
def Held.mints : Held → Bool
  | content read k pieceLen => read.any fun content =>
    (checkSources (splitSources content k pieceLen)).isOk
  | pieces held => (checkHeld held).isOk

section Drawn

variable {rounds : ℕ} {rng : Rng}

theorem isSome_encode {sources : List Bytes} {made : Except ErasureError CodedPiece × Rng}
    (h : encode rounds sources rng = some made) :
    made.1.toOption.isSome = (checkSources sources).isOk := by
  rw [encode] at h
  cases hcheck : checkSources sources with
  | error e =>
    rw [hcheck] at h
    cases h
    rfl
  | ok len =>
    rw [hcheck] at h
    obtain ⟨_, -, rfl⟩ := Option.map_eq_some_iff.mp h
    rfl

theorem isSome_recode {held : List CodedPiece} {made : Except ErasureError CodedPiece × Rng}
    (h : recode rounds held rng = some made) :
    made.1.toOption.isSome = (checkHeld held).isOk := by
  rw [recode] at h
  cases hcheck : checkHeld held with
  | error e =>
    rw [hcheck] at h
    cases h
    rfl
  | ok shape =>
    rw [hcheck] at h
    obtain ⟨_, -, rfl⟩ := Option.map_eq_some_iff.mp h
    rfl

/-- **Whatever is drawn**, a piece comes of it exactly if one can be minted. -/
theorem isSome_mintPiece {held : Held} {made : Option CodedPiece}
    (h : mintPiece rounds rng held = some made) : made.isSome = held.mints := by
  cases held with
  | content read k pieceLen =>
    cases read with
    | none =>
      cases h
      rfl
    | some content =>
      obtain ⟨result, hresult, rfl⟩ := Option.map_eq_some_iff.mp h
      exact isSome_encode hresult
  | pieces held =>
    rw [mintPiece] at h
    split_ifs at h with hempty
    · cases h
      rw [List.isEmpty_iff.mp hempty]
      rfl
    · obtain ⟨result, hresult, rfl⟩ := Option.map_eq_some_iff.mp h
      exact isSome_recode hresult

end Drawn

structure PushView where
  /-- The peers that are known, with or without pieces. -/
  peers : List B32
  /-- Who grants an offer, and who takes the piece then. -/
  grants : B32 → Bool
  accepts : B32 → Bool
  held : Held

/-- Recruits are added until there are enough candidates. -/
def gather (cap : ℕ) (skip : B32 → Bool) : List B32 → List B32 → List B32
  | [], targets => targets
  | id :: peers, targets =>
    if skip id then gather cap skip peers targets
    else if cap ≤ (targets ++ [id]).length then targets ++ [id]
    else gather cap skip peers (targets ++ [id])

/-- What a candidate does to a push: it ends well, or for want of a piece, or goes to the next. -/
def PushView.serve (push : PushView) (peer : B32) : Option Bool :=
  if push.grants peer then
    if push.held.mints then
      if push.accepts peer then some true else none
    else some false
  else none

variable {me : B32} {verified : ℕ} {view : RepairView} {push : PushView} {k : Word 32}
  {holding : B32 → ℕ × Bool}

end Zephcraft.Obj
