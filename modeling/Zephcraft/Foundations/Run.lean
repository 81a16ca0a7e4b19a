import Mathlib

/-!
# Foundations/Run — runs of a step function, and what holds along them

A system that takes one action at a time is a step function `σ → α → σ`; a run is its fold over the
actions. An invariant that one step preserves under a condition holds along every run whose steps
meet the condition.
-/

namespace Run

open List

variable {σ α : Type*} (step : σ → α → σ) (s₀ : σ)

def run (l : List α) : σ := l.foldl step s₀

@[simp] theorem run_nil : run step s₀ [] = s₀ := rfl

@[simp] theorem run_concat (l : List α) (a : α) :
    run step s₀ (l ++ [a]) = step (run step s₀ l) a := by
  simp [run]

theorem run_append (l l' : List α) : run step s₀ (l ++ l') = run step (run step s₀ l) l' :=
  foldl_append

/-- `C` holds of every step of the run: of each action, in the state it is taken in. -/
def EachStep (C : σ → α → Prop) (l : List α) : Prop :=
  ∀ pre a, pre ++ [a] <+: l → C (run step s₀ pre) a

/-- `G` holds of every state the run passes through. -/
def EachState (G : σ → Prop) (l : List α) : Prop := ∀ pre, pre <+: l → G (run step s₀ pre)

variable {step s₀} {C : σ → α → Prop} {G I : σ → Prop} {l : List α} {a : α}

theorem EachStep.of_concat (h : EachStep step s₀ C (l ++ [a])) :
    EachStep step s₀ C l ∧ C (run step s₀ l) a :=
  ⟨fun pre b hp => h pre b (hp.trans (prefix_append l [a])), h l a prefix_rfl⟩

@[simp] theorem eachStep_nil : EachStep step s₀ C [] := fun _ _ hp => by
  simp at hp

theorem eachStep_cons : EachStep step s₀ C (a :: l) ↔ C s₀ a ∧ EachStep step (step s₀ a) C l := by
  constructor
  · intro h
    exact ⟨h [] a (by simp), fun pre b hp => h (a :: pre) b (by simpa using hp)⟩
  · rintro ⟨ha, hl⟩ pre b hp
    cases pre with
    | nil =>
      obtain rfl : b = a := by simpa using hp
      exact ha
    | cons a' pre =>
      obtain ⟨rfl, hr⟩ := cons_prefix_cons.mp hp
      exact hl pre b hr

instance decidableEachStep [∀ s a, Decidable (C s a)] :
    ∀ (s : σ) (l : List α), Decidable (EachStep step s C l)
  | _, [] => isTrue eachStep_nil
  | s, a :: l =>
    have := decidableEachStep (step s a) l
    decidable_of_iff _ eachStep_cons.symm

theorem eachState_cons : EachState step s₀ G (a :: l) ↔ G s₀ ∧ EachState step (step s₀ a) G l := by
  constructor
  · intro h
    exact ⟨h [] (by simp), fun pre hp => h (a :: pre) (by simpa using hp)⟩
  · rintro ⟨h₀, hl⟩ pre hp
    cases pre with
    | nil => exact h₀
    | cons a' pre =>
      obtain ⟨rfl, hr⟩ := cons_prefix_cons.mp hp
      exact hl pre hr

@[simp] theorem eachState_nil : EachState step s₀ G [] ↔ G s₀ :=
  ⟨fun h => h [] prefix_rfl, fun h pre hp => by rwa [prefix_nil.mp hp]⟩

instance decidableEachState [DecidablePred G] :
    ∀ (s : σ) (l : List α), Decidable (EachState step s G l)
  | _, [] => decidable_of_iff _ eachState_nil.symm
  | s, a :: l =>
    have := decidableEachState (step s a) l
    decidable_of_iff _ eachState_cons.symm

theorem EachState.eachStep (h : EachState step s₀ G l) :
    EachStep step s₀ (fun s a => G (step s a)) l :=
  fun pre a hp => by simpa using h _ hp

theorem eachStep_concat :
    EachStep step s₀ C (l ++ [a]) ↔ EachStep step s₀ C l ∧ C (run step s₀ l) a := by
  refine ⟨EachStep.of_concat, fun ⟨hl, ha⟩ pre b hp => ?_⟩
  rcases prefix_concat_iff.mp hp with heq | hpre
  · obtain ⟨rfl, hb⟩ := append_inj heq (by simpa using congrArg List.length heq)
    obtain rfl : b = a := by simpa using hb
    exact ha
  · exact hl pre b hpre

theorem eachState_concat :
    EachState step s₀ G (l ++ [a]) ↔ EachState step s₀ G l ∧ G (run step s₀ (l ++ [a])) := by
  refine ⟨fun h => ⟨fun pre hp => h pre (hp.trans (prefix_append l [a])),
    h _ prefix_rfl⟩, fun ⟨hl, ha⟩ pre hp => ?_⟩
  rcases prefix_concat_iff.mp hp with rfl | hpre
  · exact ha
  · exact hl pre hpre

theorem invariant (h₀ : I s₀) (hs : ∀ s a, I s → C s a → I (step s a))
    (hC : EachStep step s₀ C l) : I (run step s₀ l) := by
  induction l using reverseRecOn with
  | nil => exact h₀
  | append_singleton l a ih =>
    rw [run_concat]
    exact hs _ _ (ih hC.of_concat.1) hC.of_concat.2

theorem always (h₀ : I s₀) (hs : ∀ s a, I s → I (step s a)) : I (run step s₀ l) :=
  invariant (C := fun _ _ => True) h₀ (fun s a h _ => hs s a h) fun _ _ _ => trivial

theorem eachState_of_invariant (h₀ : I s₀) (hs : ∀ s a, I s → C s a → I (step s a))
    (hG : ∀ s, I s → G s) (hC : EachStep step s₀ C l) : EachState step s₀ G l :=
  fun _ hp => hG _ (invariant h₀ hs fun pre a hpre => hC pre a (hpre.trans hp))

theorem eachStep_of_invariant {P : σ → α → Prop} (h₀ : I s₀)
    (hs : ∀ s a, I s → C s a → I (step s a)) (hP : ∀ s a, I s → C s a → P s a)
    (hC : EachStep step s₀ C l) : EachStep step s₀ P l := fun pre a hp =>
  hP _ a (invariant h₀ hs fun pre' b hpre =>
    hC pre' b (hpre.trans ((prefix_append pre [a]).trans hp))) (hC pre a hp)

theorem eachState_iff_eachStep_of {F : σ → Prop} (hF : EachState step s₀ F l) (h₀ : I s₀)
    (hG : ∀ s, I s → G s) (hs : ∀ s a, I s → F (step s a) → C s a → I (step s a))
    (he : ∀ s a, I s → F (step s a) → G (step s a) → C s a) :
    EachState step s₀ G l ↔ EachStep step s₀ C l := by
  suffices h : (EachState step s₀ G l ↔ EachStep step s₀ C l)
      ∧ (EachStep step s₀ C l → I (run step s₀ l)) from h.1
  induction l using reverseRecOn with
  | nil => exact ⟨⟨fun _ => eachStep_nil, fun _ => eachState_nil.mpr (hG _ h₀)⟩, fun _ => h₀⟩
  | append_singleton l a ih =>
    obtain ⟨hFl, hFa⟩ := eachState_concat.mp hF
    obtain ⟨hiff, hI⟩ := ih hFl
    rw [run_concat] at hFa
    rw [eachState_concat, eachStep_concat, run_concat, hiff]
    refine ⟨and_congr_right fun hC => ⟨he _ a (hI hC) hFa, fun hCa => ?_⟩, fun ⟨hC, hCa⟩ => ?_⟩
    · exact hG _ (hs _ a (hI hC) hFa hCa)
    · exact hs _ a (hI hC) hFa hCa

/-- **The exactness rule**: from an invariant state a step keeps the invariant exactly under `C`,
and `G` tells whether it did. -/
theorem eachState_iff_eachStep (h₀ : I s₀) (hG : ∀ s, I s → G s)
    (hs : ∀ s a, I s → C s a → I (step s a)) (he : ∀ s a, I s → G (step s a) → C s a) :
    EachState step s₀ G l ↔ EachStep step s₀ C l :=
  eachState_iff_eachStep_of (F := fun _ => True) (fun _ _ => trivial) h₀ hG (fun s a h _ =>
    hs s a h)
    fun s a h _ => he s a h

/-! ## Outputs -/

section Trace

variable {τ ο : Type*} {step' : τ → α → τ} {out : σ → α → ο} {out' : τ → α → ο} {t₀ : τ}

variable (step out) in
/-- What a run puts out, action by action. -/
def trace : σ → List α → List ο
  | _, [] => []
  | s, a :: l => out s a :: trace (step s a) l

theorem run_of_simulation {R : σ → τ → Prop} (h₀ : R s₀ t₀)
    (hs : ∀ s t a, R s t → C s a → R (step s a) (step' t a)) (hC : EachStep step s₀ C l) :
    R (run step s₀ l) (run step' t₀ l) := by
  induction l generalizing s₀ t₀ with
  | nil => exact h₀
  | cons a l ih =>
    obtain ⟨ha, hl⟩ := eachStep_cons.mp hC
    exact ih (hs s₀ t₀ a h₀ ha) hl

theorem trace_eq_of_simulation {R : σ → τ → Prop} (h₀ : R s₀ t₀)
    (hout : ∀ s t a, R s t → C s a → out s a = out' t a)
    (hs : ∀ s t a, R s t → C s a → R (step s a) (step' t a)) (hC : EachStep step s₀ C l) :
    trace step out s₀ l = trace step' out' t₀ l := by
  induction l generalizing s₀ t₀ with
  | nil => rfl
  | cons a l ih =>
    obtain ⟨ha, hl⟩ := eachStep_cons.mp hC
    rw [trace, trace, hout s₀ t₀ a h₀ ha, ih (hs s₀ t₀ a h₀ ha) hl]

end Trace

end Run
