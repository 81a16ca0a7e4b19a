import Zephcraft.Foundations.Word

/-!
# Foundations/Codec — byte encodings that can be read back

An encoder is a **prefix code** when an encoded value can be told from whatever bytes follow it.
Prefix codes compose by concatenation, so a record laid out field by field is one as soon as its
fields are; and a prefix code is injective.
-/

abbrev Byte := Word 8

abbrev Bytes := List Byte

def ascii (s : String) : Bytes := s.toList.map fun c => Word.truncate c.toNat

/-- **A prefix code**: the encoded value and the bytes after it are both determined. -/
def PrefixCode {α : Type*} (enc : α → Bytes) : Prop :=
  ∀ ⦃a b : α⦄ ⦃s t : Bytes⦄, enc a ++ s = enc b ++ t → a = b ∧ s = t

namespace PrefixCode

variable {α β : Type*} {enc : α → Bytes} {enc' : β → Bytes}

theorem injective (h : PrefixCode enc) : Function.Injective enc := fun a b hab =>
  (h (s := []) (t := []) (by simpa using hab)).1

theorem pair (h : PrefixCode enc) (h' : PrefixCode enc') :
    PrefixCode fun p : α × β => enc p.1 ++ enc' p.2 := by
  rintro ⟨a, b⟩ ⟨c, d⟩ s t hst
  simp only [List.append_assoc] at hst
  obtain ⟨rfl, hr⟩ := h hst
  obtain ⟨rfl, rfl⟩ := h' hr
  exact ⟨rfl, rfl⟩

/-- Lists of one length, written entry by entry. -/
theorem flatMap (h : PrefixCode enc) {l l' : List α} {s t : Bytes} (hlen : l.length = l'.length)
    (hst : l.flatMap enc ++ s = l'.flatMap enc ++ t) : l = l' ∧ s = t := by
  induction l generalizing l' with
  | nil =>
    obtain rfl := List.length_eq_zero_iff.mp hlen.symm
    exact ⟨rfl, hst⟩
  | cons a l ih =>
    obtain ⟨b, l', rfl⟩ := List.exists_cons_of_length_eq_add_one hlen.symm
    rw [List.flatMap_cons, List.flatMap_cons, List.append_assoc, List.append_assoc] at hst
    obtain ⟨rfl, hr⟩ := h hst
    obtain ⟨rfl, rfl⟩ := ih (Nat.succ.inj hlen) hr
    exact ⟨rfl, rfl⟩

theorem of_length {n : ℕ} (hlen : ∀ a, (enc a).length = n) (hinj : Function.Injective enc) :
    PrefixCode enc := by
  intro a b s t hst
  obtain ⟨hab, hst⟩ := List.append_inj hst (by rw [hlen, hlen])
  exact ⟨hinj hab, hst⟩

end PrefixCode

/-! ## Fixed-width integers -/

/-- The low `k` bytes of `n`, least significant first. -/
def leBytes : ℕ → ℕ → Bytes
  | 0, _ => []
  | k + 1, n => Word.truncate n :: leBytes k (n / 256)

@[simp] theorem length_leBytes (k n : ℕ) : (leBytes k n).length = k := by
  induction k generalizing n with
  | zero => rfl
  | succ k ih => simp [leBytes, ih]

theorem leBytes_inj {k m n : ℕ} (hm : m < 256 ^ k) (hn : n < 256 ^ k)
    (h : leBytes k m = leBytes k n) : m = n := by
  induction k generalizing m n with
  | zero => simp at hm hn; omega
  | succ k ih =>
    rw [pow_succ] at hm hn
    simp only [leBytes, List.cons.injEq, Fin.ext_iff, Word.val_truncate] at h
    have := ih (m := m / 256) (n := n / 256) (by omega) (by omega) h.2
    omega

/-- `u64::to_le_bytes`. -/
def U64.toLeBytes (x : U64) : Bytes := leBytes 8 x.val

/-- The bytes of a `[u8; 32]`. -/
def B32.toBytes (x : B32) : Bytes := (leBytes 32 x.val).reverse

/-- The `[u8; 32]` with the given bytes. -/
def B32.ofBytes (bytes : Bytes) : B32 :=
  Word.truncate (bytes.foldl (fun n b => 256 * n + b.val) 0)

theorem prefixCode_toBytes : PrefixCode B32.toBytes :=
  .of_length (n := 32) (by simp [B32.toBytes]) fun a b h =>
    Fin.ext (leBytes_inj (k := 32) (by norm_num; omega) (by norm_num; omega)
      (List.reverse_injective h))

theorem prefixCode_toLeBytes : PrefixCode U64.toLeBytes :=
  .of_length (n := 8) (fun _ => length_leBytes 8 _) fun a b h =>
    Fin.ext (leBytes_inj (by norm_num; omega) (by norm_num; omega) h)

theorem leBytes_foldl (s : Bytes) :
    leBytes s.length (s.foldl (fun n b => 256 * n + b.val) 0) = s.reverse := by
  induction s using List.reverseRecOn with
  | nil => rfl
  | append_singleton s b ih =>
    rw [List.length_append, List.length_singleton, leBytes, List.foldl_append, List.foldl_cons,
      List.foldl_nil, List.reverse_append, List.reverse_singleton, List.singleton_append]
    congr 1
    · refine Fin.ext ?_
      rw [Word.val_truncate]
      omega
    · rw [← ih]
      congr 1
      omega

theorem foldl_bytes_lt (s : Bytes) : s.foldl (fun n b => 256 * n + b.val) 0 < 256 ^ s.length := by
  induction s using List.reverseRecOn with
  | nil => simp
  | append_singleton s b ih =>
    rw [List.length_append, List.length_singleton, List.foldl_append, List.foldl_cons,
      List.foldl_nil, pow_succ 256]
    have hb := b.isLt
    omega

theorem toBytes_ofBytes {s : Bytes} (h : s.length = 32) : (B32.ofBytes s).toBytes = s := by
  have hlt := foldl_bytes_lt s
  have hb := leBytes_foldl s
  rw [h] at hlt hb
  rw [B32.toBytes, B32.ofBytes, Word.val_truncate, Nat.mod_eq_of_lt (hlt.trans_eq (by norm_num)),
    hb, List.reverse_reverse]

/-! ## Variable-width integers and byte strings -/

/-- Seven bits at a time, least significant first, the high bit set on every byte but the last;
`fuel` bounds the number of continuation bytes. -/
def varintFuel : ℕ → ℕ → Bytes
  | 0, n => [Word.truncate n]
  | fuel + 1, n =>
    if n < 128 then [Word.truncate n]
    else Word.truncate (n % 128 + 128) :: varintFuel fuel (n / 128)

/-- The variable-width encoding of an unsigned integer. -/
def varint (n : ℕ) : Bytes := varintFuel n n

/-- **An encoded integer is told from what follows it** — the first byte says whether another digit
comes, so the two encodings are peeled in step. -/
theorem varintFuel_append_inj {f g m n : ℕ} {s t : Bytes} (hm : m ≤ f) (hn : n ≤ g)
    (h : varintFuel f m ++ s = varintFuel g n ++ t) : m = n ∧ s = t := by
  induction f generalizing g m n with
  | zero =>
    obtain rfl : m = 0 := by omega
    cases g with
    | zero =>
      obtain rfl : n = 0 := by omega
      simpa [varintFuel] using h
    | succ g =>
      unfold varintFuel at h
      split at h <;>
        simp only [List.cons_append, List.nil_append, List.cons.injEq, Fin.ext_iff,
          Word.val_truncate] at h
      · exact ⟨by omega, h.2⟩
      · omega
  | succ f ih =>
    cases g with
    | zero =>
      obtain rfl : n = 0 := by omega
      unfold varintFuel at h
      split at h <;>
        simp only [List.cons_append, List.nil_append, List.cons.injEq, Fin.ext_iff,
          Word.val_truncate] at h
      · exact ⟨by omega, h.2⟩
      · omega
    | succ g =>
      unfold varintFuel at h
      split at h <;> split at h <;>
        simp only [List.cons_append, List.nil_append, List.cons.injEq, Fin.ext_iff,
          Word.val_truncate] at h
      · exact ⟨by omega, h.2⟩
      · omega
      · omega
      · obtain ⟨hq, rfl⟩ := ih (by omega) (by omega) h.2
        exact ⟨by omega, rfl⟩

theorem prefixCode_varint : PrefixCode varint := fun _ _ _ _ h =>
  varintFuel_append_inj le_rfl le_rfl h

def lengthPrefixed (b : Bytes) : Bytes := varint b.length ++ b

theorem prefixCode_lengthPrefixed : PrefixCode lengthPrefixed := by
  intro a b s t h
  simp only [lengthPrefixed, List.append_assoc] at h
  obtain ⟨hlen, hr⟩ := prefixCode_varint h
  exact List.append_inj hr hlen
