import Zephcraft.Foundations.Word

/-!
# Foundations/Replay — a log that is checked entry by entry

A self-verifying log is a start state and entries; each entry is checked against the state that the
ones before it have left and advances it, or refuses. Replaying stops at the first refusal.
-/

namespace Replay

variable {σ α ε : Type}

/-- The state the entries lead to from `s`; nothing if one of them is refused. -/
def replay (apply : α → σ → Except ε (Option σ)) (s : σ) : List α → Except ε (Option σ)
  | [] => pure (some s)
  | a :: rest => do
    match ← apply a s with
    | none => pure none
    | some next => replay apply next rest

variable {apply : α → σ → Except ε (Option σ)} {s t : σ} {a : α} {l l' : List α}

@[simp] theorem replay_nil : replay apply s [] = .ok (some s) := rfl

theorem replay_cons : replay apply s (a :: l) = .ok (some t)
    ↔ ∃ next, apply a s = .ok (some next) ∧ replay apply next l = .ok (some t) := by
  rw [replay, Except.bind_eq_ok]
  constructor
  · rintro ⟨applied, ha, h⟩
    cases applied with
    | none => cases h
    | some next => exact ⟨next, ha, h⟩
  · rintro ⟨next, ha, h⟩
    exact ⟨some next, ha, h⟩

theorem replay_append : replay apply s (l ++ l') = .ok (some t)
    ↔ ∃ m, replay apply s l = .ok (some m) ∧ replay apply m l' = .ok (some t) := by
  induction l generalizing s with
  | nil => simp
  | cons a l ih =>
    simp only [List.cons_append, replay_cons, ih]
    constructor
    · rintro ⟨next, ha, m, hl, hl'⟩
      exact ⟨m, ⟨next, ha, hl⟩, hl'⟩
    · rintro ⟨m, ⟨next, ha, hl⟩, hl'⟩
      exact ⟨next, ha, m, hl, hl'⟩

theorem replay_concat : replay apply s (l ++ [a]) = .ok (some t)
    ↔ ∃ m, replay apply s l = .ok (some m) ∧ apply a m = .ok (some t) := by
  rw [replay_append]
  refine exists_congr fun m => and_congr_right fun _ => ?_
  simp [replay_cons]

theorem exists_replay_of_prefix (hpre : l <+: l') (h : replay apply s l' = .ok (some t)) :
    ∃ m, replay apply s l = .ok (some m) := by
  obtain ⟨rest, rfl⟩ := hpre
  obtain ⟨m, hm, -⟩ := replay_append.mp h
  exact ⟨m, hm⟩

/-- **A log replayed on other states**: if each entry does the same to what `f` makes of a state, so
does the log. -/
theorem replay_map {τ : Type} {f : σ → τ} {apply' : α → τ → Except ε (Option τ)}
    (h : ∀ a s, apply' a (f s) = (apply a s).map (Option.map f)) :
    replay apply' (f s) l = (replay apply s l).map (Option.map f) := by
  induction l generalizing s with
  | nil => rfl
  | cons a l ih =>
    rw [replay, replay, h]
    rcases apply a s with _ | _ | next
    · rfl
    · rfl
    · exact ih

end Replay
