import Mathlib

/-!
# Foundations/Word — machine words and the three ways a program adds them

A word of `w` bits is a `Fin (2 ^ w)`. Nothing here wraps: an addition either **saturates** at the
largest word, is **checked** (an `Option`), or **panics** (an `Except Panic`), which is what `+`
does in a build with overflow checks.
-/

universe u

/-- The lexicographic order on pairs — the order of a tuple key in an ordered map. -/
instance instOrdPair {α β : Type*} [Ord α] [Ord β] : Ord (α × β) := lexOrd

/-- What a checked build does instead of returning a wrapped result. -/
inductive Panic where
  | overflow
deriving DecidableEq, Repr

variable {ε : Type*} {α β : Type u} {x : Except ε α} {b : β} {ε' : Type*}

theorem Except.bind_eq_ok {f : α → Except ε β} :
    x >>= f = .ok b ↔ ∃ a, x = .ok a ∧ f a = .ok b := by
  cases x <;> simp [bind, Except.bind]

theorem Except.mapError_eq_ok {f : ε → ε'} {a : α} : x.mapError f = .ok a ↔ x = .ok a := by
  cases x <;> simp [Except.mapError]

theorem Except.exists_map_eq_ok {ε : Type*} {x : Except ε α} {f : α → β} :
    (∃ b, f <$> x = .ok b) ↔ ∃ a, x = .ok a := by
  cases x <;> simp

theorem Except.exists_bind_pure_eq_ok {ε : Type*} {x : Except ε α} {f : α → β} :
    (∃ b, (x >>= fun a => pure (f a)) = .ok b) ↔ ∃ a, x = .ok a := by
  cases x <;> simp [bind, Except.bind, pure, Except.pure]

theorem List.mapM_eq_ok {f : α → Except ε β} {l : List α} {r : List β} :
    l.mapM f = .ok r ↔ List.Forall₂ (fun a b => f a = .ok b) l r := by
  induction l generalizing r with
  | nil => cases r <;> simp [pure, Except.pure]
  | cons a l ih =>
    simp only [mapM_cons, Except.bind_eq_ok, ih]
    cases r with
    | nil => simp [pure, Except.pure]
    | cons b r => simp [pure, Except.pure]

theorem List.exists_mapM_eq_ok {f : α → Except ε β} {l : List α} :
    (∃ r, l.mapM f = .ok r) ↔ ∀ a ∈ l, ∃ b, f a = .ok b := by
  simp only [List.mapM_eq_ok]
  induction l with
  | nil => simp
  | cons a l ih => simp [forall₂_cons_left_iff, ← ih]

theorem List.foldlM_invariant {α : Type*} {f : β → α → Except ε β} {I : β → Prop} {l : List α}
    {r : β} (h : l.foldlM f b = .ok r) (hb : I b)
    (hs : ∀ a ∈ l, ∀ b b', I b → f b a = .ok b' → I b') : I r := by
  induction l generalizing b with
  | nil =>
    obtain rfl : b = r := by simpa [pure, Except.pure] using h
    exact hb
  | cons a l ih =>
    obtain ⟨b', hb', h⟩ := Except.bind_eq_ok.mp (by simpa only [foldlM_cons] using h)
    exact ih h (hs a (by simp) b b' hb hb') fun a' ha' => hs a' (mem_cons_of_mem a ha')

theorem List.foldlM_eq_error {α : Type*} {f : β → α → Except ε β} {I : β → Prop} {l : List α}
    {e : ε} (h : l.foldlM f b = .error e) (hb : I b)
    (hs : ∀ a ∈ l, ∀ b b', I b → f b a = .ok b' → I b') :
    ∃ a ∈ l, ∃ b', I b' ∧ f b' a = .error e := by
  induction l generalizing b with
  | nil => simp [pure, Except.pure] at h
  | cons a l ih =>
    rw [foldlM_cons] at h
    cases ha : f b a with
    | error e' =>
      obtain rfl : e' = e := by simpa [ha, bind, Except.bind] using h
      exact ⟨a, by simp, b, hb, ha⟩
    | ok b' =>
      rw [ha] at h
      obtain ⟨x, hx, hr⟩ := ih h (hs a (by simp) b b' hb ha) fun a' ha' =>
        hs a' (mem_cons_of_mem a ha')
      exact ⟨x, mem_cons_of_mem a hx, hr⟩

/-- Two computations alike: both return, related results, or both fail, with related errors. -/
inductive Except.Rel {ε ε' α β : Type*} (E : ε → ε' → Prop) (R : α → β → Prop) :
    Except ε α → Except ε' β → Prop
  | ok {a : α} {b : β} (h : R a b) : Except.Rel E R (.ok a) (.ok b)
  | error {e : ε} {e' : ε'} (h : E e e') : Except.Rel E R (.error e) (.error e')

theorem Except.Rel.bind {γ δ : Type u} {E : ε → ε' → Prop} {R : α → β → Prop} {S : γ → δ → Prop}
    {y : Except ε' β} {f : α → Except ε γ} {g : β → Except ε' δ} (h : Except.Rel E R x y)
    (hf : ∀ a b, R a b → Except.Rel E S (f a) (g b)) : Except.Rel E S (x >>= f) (y >>= g) := by
  cases h with
  | ok h => exact hf _ _ h
  | error h => exact .error h

theorem List.foldlM_rel {α : Type*} {γ : Type u} {E : ε → ε' → Prop} {R : β → γ → Prop}
    {f : β → α → Except ε β} {g : γ → α → Except ε' γ} {l : List α}
    (hs : ∀ a ∈ l, ∀ b c, R b c → Except.Rel E R (f b a) (g c a)) {c : γ} (h : R b c) :
    Except.Rel E R (l.foldlM f b) (l.foldlM g c) := by
  induction l generalizing b c with
  | nil => exact .ok h
  | cons a l ih =>
    simp only [foldlM_cons]
    exact (hs a (by simp) b c h).bind fun b' c' h' =>
      ih (fun a' ha' => hs a' (mem_cons_of_mem a ha')) h'

/-- An unsigned machine word of `w` bits. -/
abbrev Word (w : ℕ) := Fin (2 ^ w)

/-- A `u64`. -/
abbrev U64 := Word 64

/-- A `u128`. -/
abbrev U128 := Word 128

/-- A `[u8; 32]`, read big-endian, so that the order of the words is the order of the arrays. -/
abbrev B32 := Word 256

/-! ## Literals and keys

A literal of a word type asks for `NeZero`, membership in a list for a lawful equality test, and an
ordered map for a transitive order on its keys. They are named here, for the widths and for the
tuples of words that key a map. -/

instance instNeZeroU8 : NeZero (2 ^ 8) := ⟨by decide⟩

instance instNeZeroU32 : NeZero (2 ^ 32) := ⟨by decide⟩

instance instNeZeroU64 : NeZero (2 ^ 64) := ⟨by decide⟩

instance instNeZeroU128 : NeZero (2 ^ 128) := ⟨by decide⟩

instance instNeZeroBytes32 : NeZero (2 ^ 256) := ⟨by decide⟩

instance instLawfulBEqBytes32 : LawfulBEq B32 := inferInstance

instance instTransOrdU8 : Std.TransOrd (Word 8) := inferInstance

instance instTransOrdU64 : Std.TransOrd U64 := inferInstance

instance instTransOrdBytes32 : Std.TransOrd B32 := inferInstance

instance instTransOrdBytes32Pair : Std.TransOrd (B32 × B32) := inferInstance

instance instTransOrdU64Bytes32 : Std.TransOrd (U64 × B32) := inferInstance

instance instLawfulEqOrdU64Bytes32 : Std.LawfulEqOrd (U64 × B32) := inferInstance

instance instTransOrdBytes32U64 : Std.TransOrd (B32 × U64) := inferInstance

instance instTransOrdBytes32Triple : Std.TransOrd (B32 × B32 × B32) := inferInstance

instance instTransOrdSlot : Std.TransOrd (B32 × B32 × B32 × U64) := inferInstance

namespace Word

open List

variable {w : ℕ}

/-- The largest word, Rust's `MAX`. -/
def top : Word w := ⟨2 ^ w - 1, Nat.sub_lt (Nat.two_pow_pos w) one_pos⟩

/-- The cast `n as uN` of a wider unsigned value: the low `w` bits. -/
def truncate (n : ℕ) : Word w := ⟨n % 2 ^ w, Nat.mod_lt _ (Nat.two_pow_pos w)⟩

@[simp] theorem val_truncate (n : ℕ) : (truncate n : Word w).val = n % 2 ^ w := rfl

/-- The cast `n as uN` into a type at least as wide. -/
def widen {v : ℕ} (h : v ≤ w) (a : Word v) : Word w := Fin.castLE (Nat.pow_le_pow_right two_pos h) a

/-! ## Saturating -/

/-- `saturating_add`. -/
def satAdd (a b : Word w) : Word w :=
  ⟨min (a.val + b.val) (2 ^ w - 1), by have := Nat.two_pow_pos w; omega⟩

/-- `saturating_sub`. -/
def satSub (a b : Word w) : Word w := ⟨a.val - b.val, by omega⟩

/-- `saturating_mul`. -/
def satMul (a b : Word w) : Word w :=
  ⟨min (a.val * b.val) (2 ^ w - 1), by have := Nat.two_pow_pos w; omega⟩

@[simp] theorem val_satAdd (a b : Word w) :
    (a.satAdd b).val = min (a.val + b.val) (2 ^ w - 1) := rfl

@[simp] theorem val_satSub (a b : Word w) : (a.satSub b).val = a.val - b.val := rfl

variable {a b c : Word w} {l : List (Word w)}

theorem val_satAdd_of_lt (h : a.val + b.val < 2 ^ w) : (a.satAdd b).val = a.val + b.val := by
  rw [val_satAdd]
  omega

/-- **A saturating fold is the sum, capped** — saturating once or at every step is the same. -/
theorem val_foldl_satAdd (l : List (Word w)) (a : Word w) :
    (l.foldl satAdd a).val = min (a.val + (l.map Fin.val).sum) (2 ^ w - 1) := by
  induction l generalizing a with
  | nil =>
    simp only [foldl_nil, map_nil, sum_nil, add_zero]
    have := a.isLt
    omega
  | cons b l ih =>
    simp only [foldl_cons, map_cons, sum_cons, ih, val_satAdd]
    omega

/-! ## Checked -/

/-- `checked_add`. -/
def checkedAdd (a b : Word w) : Option (Word w) :=
  if h : a.val + b.val < 2 ^ w then some ⟨a.val + b.val, h⟩ else none

/-- `checked_sub`. -/
def checkedSub (a b : Word w) : Option (Word w) :=
  if b ≤ a then some (a.satSub b) else none

theorem checkedAdd_eq_some : a.checkedAdd b = some c ↔ c.val = a.val + b.val := by
  unfold checkedAdd
  split
  · rw [Option.some.injEq, Fin.ext_iff, eq_comm]
  · have := c.isLt
    simp only [reduceCtorEq, false_iff]
    omega

theorem checkedSub_eq_some : a.checkedSub b = some c ↔ c.val + b.val = a.val := by
  unfold checkedSub
  split
  · rename_i h
    rw [Option.some.injEq, Fin.ext_iff, val_satSub]
    have : b.val ≤ a.val := h
    omega
  · rename_i h
    have : ¬ b.val ≤ a.val := h
    simp only [reduceCtorEq, false_iff]
    omega

/-! ## Panicking -/

/-- `a + b` in a build with overflow checks. -/
def addOrPanic (a b : Word w) : Except Panic (Word w) :=
  match a.checkedAdd b with
  | some c => .ok c
  | none => .error .overflow

/-- `a * b` in a build with overflow checks. -/
def mulOrPanic (a b : Word w) : Except Panic (Word w) :=
  if h : a.val * b.val < 2 ^ w then .ok ⟨a.val * b.val, h⟩ else .error .overflow

theorem addOrPanic_eq_ok : a.addOrPanic b = .ok c ↔ c.val = a.val + b.val := by
  rw [← checkedAdd_eq_some, addOrPanic]
  cases a.checkedAdd b <;> simp

theorem exists_addOrPanic_eq_ok : (∃ c, a.addOrPanic b = .ok c) ↔ a.val + b.val < 2 ^ w := by
  simp only [addOrPanic_eq_ok]
  exact ⟨fun ⟨c, hc⟩ => hc ▸ c.isLt, fun h => ⟨⟨_, h⟩, rfl⟩⟩

theorem mulOrPanic_eq_ok : a.mulOrPanic b = .ok c ↔ c.val = a.val * b.val := by
  unfold mulOrPanic
  split
  · rw [Except.ok.injEq, Fin.ext_iff, eq_comm]
  · have := c.isLt
    simp only [reduceCtorEq, false_iff]
    omega

theorem exists_mulOrPanic_eq_ok : (∃ c, a.mulOrPanic b = .ok c) ↔ a.val * b.val < 2 ^ w := by
  simp only [mulOrPanic_eq_ok]
  exact ⟨fun ⟨c, hc⟩ => hc ▸ c.isLt, fun h => ⟨⟨_, h⟩, rfl⟩⟩

/-- `iter().sum()` of words in a build with overflow checks: left to right, from zero. -/
def sumOrPanic (l : List (Word w)) : Except Panic (Word w) := l.foldlM addOrPanic 0

theorem foldlM_addOrPanic_eq_ok :
    l.foldlM addOrPanic a = .ok c ↔ c.val = a.val + (l.map Fin.val).sum := by
  induction l generalizing a with
  | nil =>
    simp only [foldlM_nil, map_nil, sum_nil, add_zero]
    change Except.ok a = Except.ok c ↔ _
    rw [Except.ok.injEq, Fin.ext_iff, eq_comm]
  | cons b l ih =>
    simp only [foldlM_cons, map_cons, sum_cons]
    cases h : a.addOrPanic b with
    | ok d =>
      have hd := addOrPanic_eq_ok.mp h
      change l.foldlM addOrPanic d = .ok c ↔ _
      rw [ih]
      omega
    | error e =>
      change (Except.error e : Except Panic (Word w)) = .ok c ↔ _
      simp only [reduceCtorEq, false_iff]
      intro hc
      have hlt : a.val + b.val < 2 ^ w := by have := c.isLt; omega
      exact absurd ((addOrPanic_eq_ok (c := ⟨_, hlt⟩)).mpr rfl) (by rw [h]; simp)

theorem sumOrPanic_eq_ok : sumOrPanic l = .ok c ↔ c.val = (l.map Fin.val).sum := by
  rw [sumOrPanic, foldlM_addOrPanic_eq_ok]
  simp

theorem exists_sumOrPanic_eq_ok : (∃ c, sumOrPanic l = .ok c) ↔ (l.map Fin.val).sum < 2 ^ w := by
  constructor
  · rintro ⟨c, hc⟩
    rw [← sumOrPanic_eq_ok.mp hc]
    exact c.isLt
  · exact fun h => ⟨⟨_, h⟩, sumOrPanic_eq_ok.mpr rfl⟩

end Word

/-- `a as u128`. -/
def U64.toU128 (a : U64) : U128 := a.widen (by norm_num)

@[simp] theorem U64.val_toU128 (a : U64) : a.toU128.val = a.val := rfl
