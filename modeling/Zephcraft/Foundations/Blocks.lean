import Mathlib.Data.List.Basic

/-!
# Foundations/Blocks — lists of blocks of one width, and a mark between two of them

Blocks of a fixed width, one after another, can be read back. Two lists with a mark between them can
not: where the mark's symbol stands at the beginning of a block of the first list, the blocks from
there on can be read one symbol later, as blocks of the second list.
-/

/-- Values written as blocks of `width + 1` symbols. -/
structure FixedWidth (α β : Type*) where
  width : ℕ
  encode : α → List β
  length_encode : ∀ a, (encode a).length = width + 1
  injective : Function.Injective encode

namespace FixedWidth

variable {α β : Type*} (B : FixedWidth α β)

def write (l : List α) : List β := l.flatMap B.encode

variable (a : α)

theorem encode_ne_nil : B.encode a ≠ [] := List.ne_nil_of_length_eq_add_one (B.length_encode a)

def first (a : α) : β := (B.encode a).head (B.encode_ne_nil a)

def last (a : α) : β := (B.encode a).getLast (B.encode_ne_nil a)

theorem encode_eq_first_cons : B.encode a = B.first a :: (B.encode a).tail :=
  (List.cons_head_tail (B.encode_ne_nil a)).symm

theorem encode_eq_concat_last : B.encode a = (B.encode a).dropLast ++ [B.last a] :=
  (List.dropLast_append_getLast (B.encode_ne_nil a)).symm

/-! ## Reading -/

@[simp] theorem write_nil : B.write [] = [] := rfl

@[simp] theorem write_cons (l : List α) : B.write (a :: l) = B.encode a ++ B.write l := rfl

@[simp] theorem write_append (l l' : List α) : B.write (l ++ l') = B.write l ++ B.write l' :=
  List.flatMap_append

/-- **Two lists, with something after each**: one goes on where the other stops. -/
theorem write_append_cases {l l' : List α} {s s' : List β} (h : B.write l ++ s = B.write l' ++ s') :
    (∃ rest, l' = l ++ rest ∧ s = B.write rest ++ s') ∨ ∃ rest, l = l' ++ rest
      ∧ s' = B.write rest ++ s := by
  induction l generalizing l' with
  | nil => exact .inl ⟨l', rfl, h⟩
  | cons a l ih =>
    cases l' with
    | nil => exact .inr ⟨a :: l, rfl, h.symm⟩
    | cons a' l' =>
      rw [write_cons, write_cons, List.append_assoc, List.append_assoc] at h
      obtain ⟨ha, hr⟩ := List.append_inj h (by rw [B.length_encode, B.length_encode])
      obtain rfl := B.injective ha
      rcases ih hr with ⟨rest, rfl, hs⟩ | ⟨rest, rfl, hs⟩
      · exact .inl ⟨rest, rfl, hs⟩
      · exact .inr ⟨rest, rfl, hs⟩

theorem write_eq_nil {l : List α} (h : B.write l = []) : l = [] := by
  cases l with
  | nil => rfl
  | cons a l => exact absurd (List.append_eq_nil_iff.mp h).1 (B.encode_ne_nil a)

theorem write_injective : Function.Injective B.write := by
  intro l l' h
  have h' : B.write l ++ [] = B.write l' ++ [] := by simpa using h
  rcases B.write_append_cases h' with ⟨rest, rfl, hr⟩ | ⟨rest, rfl, hr⟩ <;>
    simp [B.write_eq_nil (List.append_eq_nil_iff.mp hr.symm).1]

end FixedWidth

/-- Every block of this width is one of a value. -/
structure BlockCode (α β : Type*) extends FixedWidth α β where
  decode : List β → α
  encode_decode : ∀ s, s.length = width + 1 → encode (decode s) = s

namespace BlockCode

open FixedWidth

variable {α β : Type*} (B : BlockCode α β)

/-- The blocks one symbol later; `b` is the last symbol. -/
def readOn (b : β) : List α → List α
  | [] => []
  | [a] => [B.decode ((B.encode a).tail ++ [b])]
  | a :: a' :: l => B.decode ((B.encode a).tail ++ [B.first a']) :: readOn b (a' :: l)

/-- The blocks one symbol earlier; `b` is the first symbol. -/
def readBack : β → List α → List α
  | _, [] => []
  | b, a :: l => B.decode (b :: (B.encode a).dropLast) :: readBack (B.last a) l

/-! ## One symbol off -/

variable {mark : β} {p q : List α × List α} (b : β) (a : α) (l : List α)

theorem encode_decode_tail (b : β) :
    B.encode (B.decode ((B.encode a).tail ++ [b])) = (B.encode a).tail ++ [b] :=
  B.encode_decode _ (by simp [B.length_encode])

theorem encode_decode_dropLast (b : β) :
    B.encode (B.decode (b :: (B.encode a).dropLast)) = b :: (B.encode a).dropLast :=
  B.encode_decode _ (by simp [B.length_encode])

theorem write_readOn : B.write (a :: l) ++ [b] = B.first a :: B.write (B.readOn b (a :: l)) := by
  induction l generalizing a with
  | nil =>
    rw [readOn, write_cons, write_cons, encode_decode_tail, write_nil,
      List.append_nil, List.append_nil]
    conv_lhs => rw [encode_eq_first_cons]
    rfl
  | cons a' l ih =>
    rw [readOn, B.write_cons a, B.write_cons (B.decode _), encode_decode_tail,
      List.append_assoc, ih]
    conv_lhs => rw [encode_eq_first_cons]
    simp

theorem write_readBack (a : α) :
    b :: B.write (l ++ [a]) = B.write (B.readBack b (l ++ [a])) ++ [B.last a] := by
  induction l generalizing b with
  | nil =>
    rw [List.nil_append, readBack, readBack, write_cons, write_cons, encode_decode_dropLast,
      write_nil, List.append_nil, List.append_nil]
    conv_lhs => rw [encode_eq_concat_last]
    rfl
  | cons a' l ih =>
    rw [List.cons_append, readBack, write_cons, write_cons, encode_decode_dropLast,
      List.append_assoc, ← ih]
    conv_lhs => rw [encode_eq_concat_last]
    simp

theorem readOn_ne_nil : B.readOn b (a :: l) ≠ [] := by
  cases l <;> simp [readOn]

theorem readBack_readOn {b : β} {a : α} (h : B.first a = b) (l : List α) :
    ∃ init z, B.readOn b (a :: l) = init ++ [z] ∧ B.last z = b ∧ B.readBack b (init ++ [z])
      = a :: l := by
  have hne := B.readOn_ne_nil b a l
  have hw := B.write_readOn b a l
  rw [h, ← List.dropLast_append_getLast hne, write_readBack] at hw
  obtain ⟨hin, hl⟩ := List.append_inj' hw rfl
  exact ⟨_, _, (List.dropLast_append_getLast hne).symm, (List.singleton_inj.mp hl).symm,
    (B.write_injective hin).symm⟩

theorem readOn_readBack {b : β} {z : α} (h : B.last z = b) (init : List α) :
    ∃ a l, B.readBack b (init ++ [z]) = a :: l ∧ B.first a = b ∧ B.readOn b (a :: l)
      = init ++ [z] := by
  obtain ⟨a, l, hb⟩ : ∃ a l, B.readBack b (init ++ [z]) = a :: l := by
    cases init <;> exact ⟨_, _, rfl⟩
  have hw := B.write_readBack b init z
  rw [h, hb, write_readOn] at hw
  obtain ⟨hf, hr⟩ := List.cons.inj hw
  exact ⟨a, l, hb, hf.symm, (B.write_injective hr).symm⟩

/-! ## A mark between two lists -/

/-- From the one pair of lists to the other the blocks from one that begins with the mark have
moved. -/
def Moves (mark : β) (p q : List α × List α) : Prop :=
  ∃ a l, p.1 = q.1 ++ a :: l ∧ B.first a = mark ∧ q.2 = B.readOn mark (a :: l) ++ p.2

/-- The first list, the mark, the second. -/
def writeMarked (mark : β) (p : List α × List α) : List β := B.write p.1 ++ mark :: B.write p.2

theorem Moves.writeMarked_eq {B : BlockCode α β} (h : B.Moves mark p q) :
    B.writeMarked mark p = B.writeMarked mark q := by
  obtain ⟨a, l, hp, hf, hq⟩ := h
  have hr := B.write_readOn mark a l
  rw [hf] at hr
  rw [writeMarked, writeMarked, hp, hq, write_append, write_append, List.append_assoc,
    ← List.cons_append, ← hr]
  simp

theorem eq_or_moves_of_append {a r r' rest : List α}
    (h : mark :: B.write r = B.write rest ++ mark :: B.write r') :
    (rest = [] ∧ r = r') ∨ B.Moves mark (a ++ rest, r') (a, r) := by
  cases rest with
  | nil => exact .inl ⟨rfl, B.write_injective (List.cons.inj h).2⟩
  | cons x m =>
    have hs : mark :: B.write r = B.first x :: B.write (B.readOn mark (x :: m) ++ r') := by
      rw [h, write_append, ← List.cons_append, ← write_readOn]
      simp
    obtain ⟨hm, hr⟩ := List.cons.inj hs
    exact .inr ⟨x, m, rfl, hm.symm, B.write_injective hr⟩

theorem writeMarked_eq_iff :
    B.writeMarked mark p = B.writeMarked mark q ↔ p = q ∨ B.Moves mark p q ∨ B.Moves mark q p := by
  constructor
  · intro h
    obtain ⟨a, r⟩ := p
    obtain ⟨a', r'⟩ := q
    rcases B.write_append_cases h with ⟨rest, rfl, hs⟩ | ⟨rest, rfl, hs⟩
    · rcases B.eq_or_moves_of_append (a := a) hs with ⟨rfl, rfl⟩ | hm
      · exact .inl (by rw [List.append_nil])
      · exact .inr (.inr hm)
    · rcases B.eq_or_moves_of_append (a := a') hs with ⟨rfl, rfl⟩ | hm
      · exact .inl (by rw [List.append_nil])
      · exact .inr (.inl hm)
  · rintro (rfl | h | h)
    · rfl
    · exact h.writeMarked_eq
    · exact h.writeMarked_eq.symm

theorem moves_iff_drop : B.Moves mark p q ↔ ∃ i, ∃ h : i < p.1.length,
    B.first p.1[i] = mark ∧ q = (p.1.take i, B.readOn mark (p.1.drop i) ++ p.2) := by
  constructor
  · rintro ⟨a, l, hp, hf, hq⟩
    refine ⟨q.1.length, by simp [hp], by simpa [hp] using hf, ?_⟩
    simp [hp, ← hq]
  · rintro ⟨i, hi, hf, rfl⟩
    exact ⟨p.1[i], p.1.drop (i + 1), by simp, hf, by simp⟩

theorem moves_iff_take : B.Moves mark p q ↔ ∃ i, ∃ h : i < q.2.length,
    B.last q.2[i] = mark ∧ p = (q.1 ++ B.readBack mark (q.2.take (i + 1)), q.2.drop (i + 1)) := by
  constructor
  · rintro ⟨a, l, hp, hf, hq⟩
    obtain ⟨init, z, hon, hla, hb⟩ := B.readBack_readOn hf l
    rw [hon] at hq
    refine ⟨init.length, by simp [hq], by simpa [hq] using hla, ?_⟩
    have hl : init.length + 1 = (init ++ [z]).length := by simp
    have ht : q.2.take (init.length + 1) = init ++ [z] := by rw [hq, hl, List.take_left]
    have hd : q.2.drop (init.length + 1) = p.2 := by rw [hq, hl, List.drop_left]
    rw [ht, hd, hb, ← hp]
  · rintro ⟨i, hi, hla, rfl⟩
    obtain ⟨a, l, hb, hf, hon⟩ := B.readOn_readBack hla (q.2.take i)
    have ht : q.2.take (i + 1) = q.2.take i ++ [q.2[i]] := by simp
    refine ⟨a, l, by rw [ht, hb], hf, ?_⟩
    rw [hon, ← ht, List.take_append_drop]

end BlockCode
