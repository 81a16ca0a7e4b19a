import Zephcraft.Erasure.Coding
import Zephcraft.Foundations.Reader

/-!
# Erasure/VTags — verification tags, and what they admit

A tag is a vector `v_d` derived from a seed together with the products `sᵢ · v_d` of the sources; a
piece `(c, d)` passes it when `c · v_c + d · v_d = 0`. A combination of the sources does.
-/

namespace Zephcraft.Erasure

open Word Reader

/-- The extendable output of the hash over `"zeph-vtag-v1" ‖ seed`. -/
structure Derivation where
  deriveVD : B32 → ℕ → Bytes

/-- One byte of the seed, over and over: for concrete runs. -/
def Derivation.repeated : Derivation where
  deriveVD seed n := List.replicate n (truncate seed.val)

/-- One seed and its coefficients. -/
structure VTag where
  seed : B32
  coeffPart : Bytes
deriving DecidableEq, Repr

/-- The tags of a generation. -/
structure VTags where
  scheme : Byte
  k : Word 32
  pieceLen : U64
  tags : List VTag
deriving DecidableEq, Repr

namespace VTags

def L : ℕ := 8

def schemeNullSpaceV1 : Byte := 1

variable (D : Derivation)

def tagOf (sources : List Bytes) (pieceLen : ℕ) (seed : B32) : VTag :=
  let vD := D.deriveVD seed pieceLen
  ⟨seed, sources.map fun s => Gf.dot s vD⟩

def drawSeeds : ℕ → Rng → List B32 × Rng
  | 0, rng => ([], rng)
  | n + 1, rng =>
    let draw := rng.fillBytes 32
    let rest := drawSeeds n draw.2
    (B32.ofBytes draw.1 :: rest.1, rest.2)

def generate (sources : List Bytes) (rng : Rng) : Except ErasureError VTags × Rng :=
  match checkSources sources with
  | .error e => (.error e, rng)
  | .ok pieceLen =>
    let seeds := drawSeeds L rng
    (.ok ⟨schemeNullSpaceV1, truncate sources.length, truncate pieceLen,
      seeds.1.map (tagOf D sources pieceLen)⟩, seeds.2)

def passes (pieceLen : ℕ) (piece : CodedPiece) (tag : VTag) : Bool :=
  let vD := D.deriveVD tag.seed pieceLen
  Gf.add (Gf.dot piece.codingVector tag.coeffPart) (Gf.dot piece.data vD) = 0

def verify (vtags : VTags) (piece : CodedPiece) : Bool :=
  if vtags.scheme ≠ schemeNullSpaceV1 then false
  else if piece.codingVector.length ≠ vtags.k.val
    ∨ piece.data.length ≠ vtags.pieceLen.val then false
  else vtags.tags.all (passes D vtags.pieceLen.val piece)

variable {D : Derivation} {vtags : VTags} {piece : CodedPiece} {held : List CodedPiece}

theorem verify_iff :
    verify D vtags piece = true ↔ vtags.scheme = schemeNullSpaceV1
        ∧ (piece.codingVector.length = vtags.k.val ∧ piece.data.length = vtags.pieceLen.val)
        ∧ ∀ tag ∈ vtags.tags, passes D vtags.pieceLen.val piece tag = true := by
  rw [verify]
  split_ifs with hs hlen
  · simp [hs]
  · simp only [false_iff]
    exact fun h => hlen.elim (absurd h.2.1.1) (absurd h.2.1.2)
  · push Not at hs hlen
    simp [hs, hlen]

/-! ## On the wire -/

def encodeTag (tag : VTag) : Bytes := tag.seed.toBytes ++ lengthPrefixed tag.coeffPart

/-- The encoded tags, as a generation carries them. -/
def encode (vtags : VTags) : Bytes :=
  [vtags.scheme] ++ varint vtags.k.val ++ varint vtags.pieceLen.val ++ varint vtags.tags.length
    ++ vtags.tags.flatMap encodeTag

def readTag : Reader VTag := do
  let seed ← bytes32
  let coeffPart ← framed
  pure ⟨seed, coeffPart⟩

def read : Reader VTags := do
  let scheme ← Reader.byte
  let k ← uint 32
  let pieceLen ← uint 64
  let n ← uint 64
  let tags ← times readTag n
  pure ⟨scheme, truncate k, truncate pieceLen, tags⟩

/-- The tags from their encoding; what follows it is not looked at. -/
def decode (bytes : Bytes) : Option VTags := (read bytes).map Prod.fst

open Reader in
theorem reads_encode (hn : vtags.tags.length < 2 ^ 64)
    (ht : ∀ tag ∈ vtags.tags, tag.coeffPart.length < 2 ^ 64) :
    Reads read vtags.encode vtags := by
  have htag : ∀ tag ∈ vtags.tags, Reads readTag (encodeTag tag) tag := fun tag h => by
    have hr : Reads readTag (tag.seed.toBytes ++ (lengthPrefixed tag.coeffPart ++ [])) tag :=
      (reads_bytes32 tag.seed).bind ((reads_framed (ht tag h)).bind (.pure tag))
    rwa [List.append_nil] at hr
  have hw : (⟨vtags.scheme, truncate vtags.k.val, truncate vtags.pieceLen.val, vtags.tags⟩ : VTags)
      = vtags := by
    cases vtags
    simp [truncate, Nat.mod_eq_of_lt]
  have hr : Reads read ([vtags.scheme] ++ (varint vtags.k.val ++ (varint vtags.pieceLen.val
      ++ (varint vtags.tags.length ++ (vtags.tags.flatMap encodeTag ++ [])))))
      ⟨vtags.scheme, truncate vtags.k.val, truncate vtags.pieceLen.val, vtags.tags⟩ :=
    (reads_byte _).bind ((reads_uint (by norm_num) vtags.k.isLt).bind
      ((reads_uint (by norm_num) vtags.pieceLen.isLt).bind
      ((reads_uint (by norm_num) hn).bind ((reads_times htag).bind (.pure _)))))
  rw [hw] at hr
  simpa only [encode, List.append_assoc, List.append_nil] using hr

theorem decode_encode (hn : vtags.tags.length < 2 ^ 64)
    (ht : ∀ tag ∈ vtags.tags, tag.coeffPart.length < 2 ^ 64) :
    decode vtags.encode = some vtags := by
  have hr := reads_encode hn ht []
  rw [List.append_nil] at hr
  rw [decode, show read vtags.encode = some (vtags, []) from hr]
  rfl

/-! ## Recoding verified pieces -/

/-- **Recoding verified pieces can finish exactly when one of them is not zero.** -/
theorem recode_finishes_iff (hne : held ≠ []) (hheld : ∀ p ∈ held, verify D vtags p = true) :
    (∃ rng rounds piece rng', recode rounds held rng = some (.ok piece, rng'))
      ↔ ∃ p ∈ held, anyNonzero p.codingVector = true := by
  have hlen :
      ∀ p ∈ held, p.codingVector.length = vtags.k.val ∧ p.data.length = vtags.pieceLen.val :=
    fun p hp => (verify_iff.mp (hheld p hp)).2.1
  have hcheck : checkHeld held = .ok (vtags.k.val, vtags.pieceLen.val) :=
    checkHeld_eq_ok.mpr ⟨hne, hlen⟩
  simp only [recode_eq_ok hcheck]
  exact exists_recodeLoop_iff fun p hp => (hlen p hp).1

/-- The tag of the source `[7]` for one seed. -/
def oneTag : VTags := ⟨1, 1, 1, [tagOf .repeated [[7]] 1 5]⟩

theorem recode_finishes_iff_multiple :
    (∃ rng rounds piece rng', recode rounds [⟨[3], [9]⟩] rng = some (.ok piece, rng'))
      ↔ ∃ p ∈ [(⟨[3], [9]⟩ : CodedPiece)], anyNonzero p.codingVector = true := by
  have hheld : ∀ p ∈ [(⟨[3], [9]⟩ : CodedPiece)], verify .repeated oneTag p = true := by
    decide +kernel
  exact recode_finishes_iff (by simp) hheld

/-- **The zero piece passes, and recoding it never ends.** -/
theorem zero_piece_recoded_forever :
    verify .repeated oneTag ⟨[0], [0]⟩ = true
      ∧ ∀ rng rounds, recode rounds [⟨[0], [0]⟩] rng = none := by
  refine ⟨by decide +kernel, fun rng rounds => ?_⟩
  have hloop : recodeLoop [⟨[0], [0]⟩] 1 1 rounds rng = none := by
    by_contra h
    obtain ⟨⟨piece, rng'⟩, h⟩ := Option.ne_none_iff_exists'.mp h
    have hnonzero : ∃ p ∈ [(⟨[0], [0]⟩ : CodedPiece)], anyNonzero p.codingVector = true :=
      (exists_recodeLoop_iff (by simp)).mp ⟨rng, rounds, piece, rng', h⟩
    exact absurd hnonzero (by decide)
  have hcheck : checkHeld [⟨[0], [0]⟩] = .ok (1, 1) := by decide
  rw [recode, hcheck]
  exact congrArg (Option.map _) hloop

end VTags

end Zephcraft.Erasure
