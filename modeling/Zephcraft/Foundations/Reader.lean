import Zephcraft.Foundations.Codec

/-!
# Foundations/Reader — reading values back off a byte string

A reader takes a value off the front of a byte string and leaves the rest. It **reads** an encoding
when it takes exactly that encoding off, whatever comes behind it, and readings compose as the
encodings do.
-/

/-- A reader of values: what it read, and the bytes behind. -/
abbrev Reader (α : Type) := StateT Bytes Option α

/-- The reader takes this encoding off the front and makes that value of it. -/
def Reads {α : Type} (r : Reader α) (enc : Bytes) (a : α) : Prop :=
  ∀ rest, r.run (enc ++ rest) = some (a, rest)

namespace Reads

variable {α β : Type} {r : Reader α} {f : α → Reader β} {g : α → β} {enc enc' : Bytes} {a : α}
  {b : β}

theorem pure (a : α) : Reads (Pure.pure a) [] a := fun _ => rfl

theorem bind (h : Reads r enc a) (h' : Reads (f a) enc' b) : Reads (r >>= f) (enc ++ enc') b := by
  intro rest
  rw [StateT.run_bind, List.append_assoc, h]
  exact h' rest

theorem map (h : Reads r enc a) : Reads (g <$> r) enc (g a) := fun rest => by
  rw [StateT.run_map, h]
  rfl

end Reads

/-! ## Bytes -/

namespace Reader

def byte : Reader Byte
  | [] => none
  | b :: rest => some (b, rest)

/-- The next `n` bytes. -/
def bytes (n : ℕ) : Reader Bytes :=
  fun s => if s.length < n then none else some (s.take n, s.drop n)

theorem reads_byte (b : Byte) : Reads byte [b] b := fun _ => rfl

theorem reads_bytes {n : ℕ} {s : Bytes} (h : s.length = n) : Reads (bytes n) s s := by
  subst h
  intro rest
  change (if _ then _ else _) = _
  rw [if_neg (by simp), List.take_left, List.drop_left]

/-- A `[u8; 32]`. -/
def bytes32 : Reader B32 := B32.ofBytes <$> bytes 32

theorem foldl_reverse_leBytes (k n : ℕ) :
    (leBytes k n).reverse.foldl (fun m b => 256 * m + b.val) 0 = n % 256 ^ k := by
  induction k generalizing n with
  | zero => simp [leBytes, Nat.mod_one]
  | succ k ih =>
    rw [leBytes, List.reverse_cons, List.foldl_append, ih, List.foldl_cons, List.foldl_nil,
      Word.val_truncate, pow_succ' 256 k, Nat.mod_mul, add_comm]
    norm_num

theorem ofBytes_toBytes (x : B32) : B32.ofBytes x.toBytes = x := by
  refine Fin.ext ?_
  have hx : x.val < 256 ^ 32 := lt_of_lt_of_eq x.isLt (by norm_num)
  rw [B32.ofBytes, B32.toBytes, foldl_reverse_leBytes, Word.val_truncate, Nat.mod_eq_of_lt hx,
    Nat.mod_eq_of_lt x.isLt]

theorem reads_bytes32 (x : B32) : Reads bytes32 x.toBytes x := by
  have h := (reads_bytes (n := 32) (s := x.toBytes) (by simp [B32.toBytes])).map (g := B32.ofBytes)
  rwa [ofBytes_toBytes] at h

/-! ## Variable-width integers -/

/-- The digits of a variable-width integer, at most `fuel` of them. -/
def digits : ℕ → Reader ℕ
  | 0 => fun _ => none
  | fuel + 1 => do
    let b ← byte
    if b.val < 128 then pure b.val
    else do
      let n ← digits fuel
      pure (b.val % 128 + 128 * n)

/-- A variable-width integer of `w` bits: no longer than such an integer can be, and in range. -/
def uint (w : ℕ) : Reader ℕ := do
  let n ← digits ((w + 6) / 7)
  if n < 2 ^ w then pure n else failure

theorem reads_last_digit (fuel : ℕ) {n : ℕ} (h : n < 128) :
    Reads (digits (fuel + 1)) [Word.truncate n] n := by
  have hval : (Word.truncate n : Byte).val = n := Nat.mod_eq_of_lt (by omega)
  refine (reads_byte _).bind ?_
  rw [hval, if_pos h]
  exact .pure n

theorem reads_digits {fuel f n : ℕ} (hf : n ≤ f) (hn : n < 128 ^ (fuel + 1)) :
    Reads (digits (fuel + 1)) (varintFuel f n) n := by
  induction fuel generalizing f n with
  | zero =>
    have hlt : n < 128 := by simpa using hn
    cases f with
    | zero => exact reads_last_digit 0 hlt
    | succ f =>
      rw [varintFuel, if_pos hlt]
      exact reads_last_digit 0 hlt
  | succ fuel ih =>
    cases f with
    | zero => exact reads_last_digit _ (by omega)
    | succ f =>
      rw [varintFuel]
      split
      · exact reads_last_digit _ ‹_›
      · -- a digit with more to come: the low seven bits, and the rest of the number
        have hval : (Word.truncate (n % 128 + 128) : Byte).val = n % 128 + 128 :=
          Nat.mod_eq_of_lt (by omega)
        have hr : n / 128 < 128 ^ (fuel + 1) := Nat.div_lt_of_lt_mul (by rwa [← pow_succ'])
        have hnu : (n % 128 + 128) % 128 + 128 * (n / 128) = n := by omega
        refine (reads_byte _).bind ?_
        rw [hval, if_neg (by omega), ← List.append_nil (varintFuel f (n / 128))]
        refine (ih (by omega) hr).bind ?_
        rw [hnu]
        exact .pure n

theorem reads_uint {w n : ℕ} (hw : 0 < w) (hn : n < 2 ^ w) : Reads (uint w) (varint n) n := by
  obtain ⟨fuel, hfu⟩ : ∃ fuel, (w + 6) / 7 = fuel + 1 := ⟨(w + 6) / 7 - 1, by omega⟩
  have hf : n < 128 ^ (fuel + 1) := by
    refine hn.trans_le ?_
    rw [show 128 = 2 ^ 7 by norm_num, ← pow_mul]
    exact Nat.pow_le_pow_right two_pos (by omega)
  rw [uint, hfu, ← List.append_nil (varint n)]
  refine (reads_digits le_rfl hf).bind ?_
  rw [if_pos hn]
  exact .pure n

def word (w : ℕ) : Reader (Word w) := Word.truncate <$> uint w

/-! ## Byte strings and lists -/

/-- A byte string behind its length, which is a 64-bit number. -/
def framed : Reader Bytes := do
  let n ← uint 64
  bytes n

theorem reads_framed {s : Bytes} (h : s.length < 2 ^ 64) : Reads framed (lengthPrefixed s) s :=
  (reads_uint (by norm_num) h).bind (reads_bytes rfl)

/-- `n` values in a row. -/
def times {α : Type} (r : Reader α) : ℕ → Reader (List α)
  | 0 => pure []
  | n + 1 => do
    let a ← r
    let l ← times r n
    pure (a :: l)

theorem reads_times {α : Type} {r : Reader α} {enc : α → Bytes} {l : List α}
    (h : ∀ a ∈ l, Reads r (enc a) a) :
    Reads (times r l.length) (l.flatMap enc) l := by
  induction l with
  | nil => exact .pure []
  | cons a l ih =>
    obtain ⟨ha, hl⟩ := List.forall_mem_cons.mp h
    rw [List.flatMap_cons, ← List.append_nil (l.flatMap enc)]
    exact ha.bind ((ih hl).bind (.pure (a :: l)))

/-- A list behind its length, which is a number of `w` bits. -/
def vec {α : Type} (w : ℕ) (r : Reader α) : Reader (List α) := do
  let n ← uint w
  times r n

/-! ## What a reading takes -/

section Takes

variable {α β : Type} {r : Reader α} {f : α → Reader β} {k j n : ℕ} {s rest : Bytes}

/-- The reader takes at least `k` bytes off. -/
def Takes (r : Reader α) (k : ℕ) : Prop :=
  ∀ s a rest, r s = some (a, rest) → rest.length + k ≤ s.length

theorem bind_eq_some {b : β} :
    (r >>= f) s = some (b, rest) ↔ ∃ a behind, r s = some (a, behind)
      ∧ f a behind = some (b, rest) := by
  change ((r s).bind fun p => f p.1 p.2) = some (b, rest) ↔ _
  rw [Option.bind_eq_some_iff, Prod.exists]

theorem Takes.mono (h : Takes r k) (hle : j ≤ k) : Takes r j := fun s a rest hr => by
  have := h s a rest hr
  omega

theorem takes_pure (a : α) : Takes (pure a) 0 := by
  rintro s _ _ ⟨⟩
  exact le_rfl

theorem takes_failure : Takes (failure : Reader α) k := fun _ _ _ h => nomatch h

theorem Takes.bind (h : Takes r k) (h' : ∀ a, Takes (f a) j) : Takes (r >>= f) (k + j) := by
  intro s b rest hr
  obtain ⟨a, behind, ha, hb⟩ := bind_eq_some.mp hr
  have hf := h s a behind ha
  have hs := h' a behind b rest hb
  omega

theorem takes_byte : Takes byte 1 := by
  rintro (_ | ⟨b, s⟩) a rest hr
  · cases hr
  · obtain ⟨rfl, rfl⟩ : b = a ∧ s = rest := by simpa [byte] using hr
    simp

theorem takes_bytes (n : ℕ) : Takes (bytes n) n := by
  intro s a rest hr
  change (if s.length < n then none else some (s.take n, s.drop n)) = some (a, rest) at hr
  split_ifs at hr with hlen
  obtain ⟨-, rfl⟩ : _ ∧ s.drop n = rest := by simpa using hr
  rw [List.length_drop]
  omega

theorem takes_bytes32 : Takes bytes32 32 := by
  rw [bytes32, map_eq_pure_bind]
  exact (takes_bytes 32).bind fun a => takes_pure _

theorem takes_digits (fuel : ℕ) : Takes (digits fuel) 0 := by
  induction fuel with
  | zero => exact fun _ _ _ h => nomatch h
  | succ fuel ih =>
    refine (takes_byte.bind fun b => ?_).mono (Nat.zero_le (1 + 0))
    split
    · exact takes_pure _
    · exact ih.bind fun n => takes_pure _

theorem takes_uint (w : ℕ) : Takes (uint w) 0 := by
  refine ((takes_digits _).bind fun n => ?_).mono (Nat.zero_le (0 + 0))
  split
  · exact takes_pure _
  · exact takes_failure

theorem takes_word (w : ℕ) : Takes (word w) 0 := by
  rw [word, map_eq_pure_bind]
  exact (takes_uint w).bind fun a => takes_pure _

theorem length_times {l : List α} (h : Takes r 1) (hl : times r n s = some (l, rest)) :
    l.length = n ∧ rest.length + n ≤ s.length := by
  induction n generalizing s l with
  | zero =>
    obtain ⟨rfl, rfl⟩ : [] = l ∧ s = rest := by simpa [times, pure, StateT.pure] using hl
    simp
  | succ n ih =>
    obtain ⟨a, behind, ha, hl⟩ := bind_eq_some.mp hl
    obtain ⟨l', behind', hl', hp⟩ := bind_eq_some.mp hl
    obtain ⟨rfl, rfl⟩ : a :: l' = l ∧ behind' = rest := by simpa [pure, StateT.pure] using hp
    obtain ⟨hlen, hle⟩ := ih hl'
    have hf := h s a behind ha
    rw [List.length_cons]
    omega

theorem length_vec_le {w : ℕ} {l : List α} (h : Takes r 1) (hl : vec w r s = some (l, rest)) :
    rest.length + l.length ≤ s.length := by
  obtain ⟨n, behind, hn, hl⟩ := bind_eq_some.mp hl
  obtain ⟨rfl, hle⟩ := length_times h hl
  have hf := takes_uint w s _ behind hn
  omega

end Takes

/-! ## A wider reader -/

section Widens

variable {α β : Type} {r r' : Reader α} {f f' : α → Reader β}

/-- What the first reader reads, the second reads alike. -/
def Widens (r r' : Reader α) : Prop := ∀ s x, r s = some x → r' s = some x

theorem Widens.refl (r : Reader α) : Widens r r := fun _ _ h => h

theorem Widens.bind (h : Widens r r') (h' : ∀ a, Widens (f a) (f' a)) :
    Widens (r >>= f) (r' >>= f') := by
  rintro s ⟨b, rest⟩ hr
  obtain ⟨a, behind, ha, hb⟩ := bind_eq_some.mp hr
  exact bind_eq_some.mpr ⟨a, behind, h _ _ ha, h' a _ _ hb⟩

theorem widens_digits {k j : ℕ} (h : k ≤ j) : Widens (digits k) (digits j) := by
  induction k generalizing j with
  | zero => exact fun _ _ h => nomatch h
  | succ k ih =>
    obtain ⟨j, rfl⟩ : ∃ j', j = j' + 1 := ⟨j - 1, by omega⟩
    refine (Widens.refl byte).bind fun b => ?_
    split
    · exact .refl _
    · exact (ih (by omega)).bind fun _ => .refl _

theorem widens_uint {w w' : ℕ} (h : w ≤ w') : Widens (uint w) (uint w') := by
  refine (widens_digits (Nat.div_le_div_right (by omega))).bind fun n => ?_
  split_ifs with hn hn'
  · exact .refl _
  · exact absurd (hn.trans_le (Nat.pow_le_pow_right two_pos h)) hn'
  · exact fun _ _ h => nomatch h
  · exact .refl _

theorem widens_vec {w w' : ℕ} (h : w ≤ w') (r : Reader α) : Widens (vec w r) (vec w' r) :=
  (widens_uint h).bind fun _ => .refl _

end Widens

end Reader
