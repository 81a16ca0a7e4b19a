import Mathlib

/-!
# Foundations/Worklist — visiting what can be reached

A stack of things to visit, and the set of those visited: the top is taken off, and if it was not
visited before it is visited now, which changes a state and gives the links that are put on the
stack.
-/

namespace Worklist

open List

variable {α σ : Type*}

/-- One can get from `a` to `b` along links. -/
def Reach (next : α → List α) (a b : α) : Prop := Relation.ReflTransGen (fun a b => b ∈ next a) a b

theorem Reach.refl (next : α → List α) (a : α) : Reach next a a := Relation.ReflTransGen.refl

theorem Reach.tail {next : α → List α} {a b c : α} (h : Reach next a b) (hc : c ∈ next b) :
    Reach next a c :=
  Relation.ReflTransGen.tail h hc

theorem Reach.invariant {next : α → List α} {P : α → Prop} {a b : α} (h : Reach next a b) (ha : P a)
    (hn : ∀ c, P c → ∀ d ∈ next c, P d) : P b := by
  induction h with
  | refl => exact ha
  | tail _ hd ih => exact hn _ ih _ hd

variable [DecidableEq α]

/-- Visit from a stack: the state and the visited things, or `none` if that takes `n` turns and
more. -/
def traverse (visit : σ → α → σ × List α) : ℕ → List α → List α → σ → Option (σ × List α)
  | 0, _, _, _ => none
  | _ + 1, [], seen, s => some (s, seen)
  | n + 1, a :: stack, seen, s =>
    if a ∈ seen then traverse visit n stack seen s
    else traverse visit n ((visit s a).2.reverse ++ stack) (a :: seen) (visit s a).1

variable {visit : σ → α → σ × List α}

/-- **In a finite graph the stack runs empty**: each thing puts its links on the stack at most once.
What every visit keeps holds at the end. -/
theorem exists_traverse {I : σ → Prop} {U : Finset α} {w : α → ℕ}
    (hv : ∀ s a, I s → a ∈ U → I (visit s a).1 ∧ (visit s a).2.length ≤ w a ∧ ∀ b ∈ (visit s a).2,
      b ∈ U) {n : ℕ} {stack seen : List α} {s : σ} (hs : I s) (hst : ∀ a ∈ stack, a ∈ U)
    (hn : stack.length + ∑ a ∈ U.filter (· ∉ seen), w a < n) :
    ∃ r, traverse visit n stack seen s = some r ∧ I r.1 := by
  fun_induction traverse visit n stack seen s with
  | case1 => exact absurd hn (Nat.not_lt_zero _)
  | case2 n seen s => exact ⟨(s, seen), rfl, hs⟩
  | case3 n a stack seen s ha ih =>
    refine ih hs (fun b hb => hst b (.tail a hb)) ?_
    rw [length_cons] at hn
    omega
  | case4 n a stack seen s ha ih =>
    have haU := hst a (.head _)
    obtain ⟨hI, hle, hl⟩ := hv s a hs haU
    refine ih hI (fun b hb => ?_) ?_
    · rcases mem_append.mp hb with hb | hb
      · exact hl b (mem_reverse.mp hb)
      · exact hst b (.tail a hb)
    · -- the links of `a` go from the sum to the stack
      have hf : U.filter (· ∉ a :: seen) = (U.filter (· ∉ seen)).erase a := by
        ext b
        simp only [Finset.mem_filter, Finset.mem_erase, mem_cons, not_or]
        tauto
      have hsum := Finset.add_sum_erase (U.filter (· ∉ seen)) w (Finset.mem_filter.mpr ⟨haU, ha⟩)
      rw [hf, length_append, length_reverse]
      rw [length_cons] at hn
      omega

/-- **The things visited are those that can be reached**, and what is kept by each visit of one of
them holds. -/
theorem traverse_spec {next : α → List α} {root : α} {P : List α → σ → Prop}
    (hv : ∀ seen s a, Reach next root a → a ∉ seen → P seen s →
      (visit s a).2 = next a ∧ P (a :: seen) (visit s a).1)
    {n : ℕ} {s : σ} {r : σ × List α} (hP : P [] s) (h : traverse visit n [root] [] s = some r) :
    P r.2 r.1 ∧ ∀ b, b ∈ r.2 ↔ Reach next root b := by
  -- links of visited things are visited or on the stack
  suffices hall : ∀ (n : ℕ) (stack seen : List α) (s : σ), P seen s
      → (∀ a ∈ stack, Reach next root a) → (∀ a ∈ seen, Reach next root a)
      → (∀ a ∈ seen, ∀ b ∈ next a, b ∈ seen ∨ b ∈ stack) →
      (root ∈ seen ∨ root ∈ stack) → traverse visit n stack seen s = some r →
      P r.2 r.1 ∧ ∀ b, b ∈ r.2 ↔ Reach next root b from
    hall n [root] [] s hP (fun a ha => mem_singleton.mp ha ▸ Reach.refl next root)
      (fun a ha => nomatch ha) (fun a ha => nomatch ha)
      (.inr (.head _)) h
  intro n stack seen s hP hs hse hcl hro h
  fun_induction traverse visit n stack seen s with
  | case1 => exact absurd h (by simp)
  | case2 n seen s =>
    cases h
    refine ⟨hP, fun b => ⟨hse b, fun hb => ?_⟩⟩
    exact hb.invariant (hro.resolve_right not_mem_nil)
      fun c hc d hd => (hcl c hc d hd).resolve_right not_mem_nil
  | case3 n a stack seen s ha ih =>
    have hpop : ∀ b, b ∈ seen ∨ b ∈ a :: stack → b ∈ seen ∨ b ∈ stack := fun b hb => by
      rw [mem_cons] at hb
      rcases hb with hb | rfl | hb
      · exact .inl hb
      · exact .inl ha
      · exact .inr hb
    exact ih hP (fun b hb => hs b (.tail a hb)) hse
      (fun b hb c hc => hpop c (hcl b hb c hc)) (hpop root hro) h
  | case4 n a stack seen s ha ih =>
    have hr := hs a (.head _)
    obtain ⟨hl, hP'⟩ := hv seen s a hr ha hP
    have hmem : ∀ b, b ∈ (visit s a).2.reverse ++ stack ↔ b ∈ next a ∨ b ∈ stack := fun b => by
      rw [hl, mem_append, mem_reverse]
    have hp : ∀ b, b ∈ seen ∨ b ∈ a :: stack → b ∈ a :: seen
        ∨ b ∈ (visit s a).2.reverse ++ stack := by
      intro b hb
      rw [mem_cons] at hb ⊢
      rw [hmem]
      tauto
    refine ih hP' (fun b hb => ?_) (fun b hb => ?_) (fun b hb c hc => ?_) (hp root hro) h
    · rcases (hmem b).mp hb with hb | hb
      · exact hr.tail hb
      · exact hs b (.tail a hb)
    · rcases mem_cons.mp hb with rfl | hb
      · exact hr
      · exact hse b hb
    · rcases mem_cons.mp hb with rfl | hb
      · exact .inr ((hmem c).mpr (.inl hc))
      · exact hp c (hcl b hb c hc)

end Worklist
