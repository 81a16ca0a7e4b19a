import Zephcraft.Core.Identity
import Zephcraft.Foundations.Blocks
import Zephcraft.Noded.Holdings

/-!
# Noded/HoldingsSignature — what a signature on a holdings manifest covers

A node signs the bytes of its claim: who it is, the version, and the ids one after another. In a
diff the added ids and the removed ones follow each other with one byte between them, and no
lengths.
-/

namespace Zephcraft.Noded

open Zephcraft.Core

def idBlocks : BlockCode B32 Byte where
  width := 31
  encode := B32.toBytes
  length_encode x := by simp [B32.toBytes]
  injective := prefixCode_toBytes.injective
  decode := B32.ofBytes
  encode_decode _ := toBytes_ofBytes

def removedMark : Byte := 3

def Body.signingBytes : Body → Bytes
  | snapshot cids => 0 :: cids.flatMap B32.toBytes
  | diff added removed prev =>
    1 :: prev.toBytes ++ 2 :: (added.flatMap B32.toBytes ++ removedMark
      :: removed.flatMap B32.toBytes)

def HoldingsManifest.signingBytes (m : HoldingsManifest) : Bytes :=
  m.node.toBytes ++ (m.version.toLeBytes ++ m.body.signingBytes)

/-- A claim and its signature. -/
structure SignedManifest where
  claim : HoldingsManifest
  sig : Bytes

def SignedManifest.verify (S : SigScheme) (m : SignedManifest) : Bool :=
  m.claim.verify && S.verifyBytes m.claim.node m.claim.signingBytes m.sig

/-- The checks on the two lists of a diff. -/
def separate (p : List B32 × List B32) : Bool :=
  canonical p.1 && canonical p.2 && !p.1.any (· ∈ p.2)

theorem HoldingsManifest.verify_diff (node : B32) (version : U64) (p : List B32 × List B32)
    (prev : B32) :
    (HoldingsManifest.mk node version (.diff p.1 p.2 prev)).verify = separate p := rfl

/-- **No other cut passes the checks**: not before an added id that begins with the mark, not after
a removed one that ends with it. -/
def Body.Uncut : Body → Prop
  | snapshot _ => True
  | diff added removed _ =>
    (∀ i, ∀ h : i < added.length, idBlocks.first added[i] = removedMark →
      separate (added.take i, idBlocks.readOn removedMark (added.drop i) ++ removed) = false)
    ∧ ∀ i, ∀ h : i < removed.length, idBlocks.last removed[i] = removedMark →
      separate (added ++ idBlocks.readBack removedMark (removed.take (i + 1)), removed.drop (i + 1))
        = false

instance : DecidablePred Body.Uncut
  | .snapshot _ => inferInstanceAs (Decidable True)
  | .diff added removed _ => inferInstanceAs (Decidable ((∀ i, ∀ _ : i < added.length, _)
    ∧ ∀ i, ∀ _ : i < removed.length, _))

theorem HoldingsManifest.signingBytes_eq_iff {m m' : HoldingsManifest} :
    m.signingBytes = m'.signingBytes ↔ m.node = m'.node ∧ m.version = m'.version
      ∧ m.body.signingBytes = m'.body.signingBytes := by
  constructor
  · intro h
    obtain ⟨hn, h⟩ := prefixCode_toBytes h
    obtain ⟨hv, hb⟩ := prefixCode_toLeBytes h
    exact ⟨hn, hv, hb⟩
  · rintro ⟨hn, hv, hb⟩
    rw [signingBytes, signingBytes, hn, hv, hb]

theorem Body.signingBytes_eq {body body' : Body} (h : body.signingBytes = body'.signingBytes) :
    body = body' ∨ ∃ p q prev, body = .diff p.1 p.2 prev ∧ body' = .diff q.1 q.2 prev
      ∧ (idBlocks.Moves removedMark p q ∨ idBlocks.Moves removedMark q p) := by
  cases body <;> cases body'
  case snapshot.snapshot cids cids' =>
    exact .inl (congrArg _ (idBlocks.write_injective (List.cons.inj h).2))
  case diff.diff added removed prev added' removed' prev' =>
    obtain ⟨rfl, hr⟩ := prefixCode_toBytes (List.cons.inj h).2
    rcases idBlocks.writeMarked_eq_iff (p := (added, removed)) (q := (added', removed')).mp
      (List.cons.inj hr).2 with
      heq | hm
    · cases heq
      exact .inl rfl
    · exact .inr ⟨(added, removed), (added', removed'), prev, rfl, rfl, hm⟩
  all_goals exact absurd (List.cons.inj h).1 (by decide)

theorem Body.signingBytes_eq_of_moves {p q : List B32 × List B32} (prev : B32)
    (h : idBlocks.Moves removedMark p q ∨ idBlocks.Moves removedMark q p) :
    (Body.diff p.1 p.2 prev).signingBytes = (Body.diff q.1 q.2 prev).signingBytes := by
  have hm := idBlocks.writeMarked_eq_iff.mpr (.inr h)
  exact congrArg (fun s => 1 :: prev.toBytes ++ 2 :: s) hm

theorem Body.uncut_diff_iff {p : List B32 × List B32} {prev : B32} : (Body.diff p.1 p.2 prev).Uncut
    ↔ ∀ q, idBlocks.Moves removedMark p q ∨ idBlocks.Moves removedMark q p
      → separate q = false := by
  constructor
  · rintro ⟨ha, hr⟩ q (hm | hm)
    · obtain ⟨i, hi, hf, rfl⟩ := idBlocks.moves_iff_drop.mp hm
      exact ha i hi hf
    · obtain ⟨i, hi, hl, rfl⟩ := idBlocks.moves_iff_take.mp hm
      exact hr i hi hl
  · refine fun h => ⟨fun i hi hf => h _ (.inl ?_), fun i hi hl => h _ (.inr ?_)⟩
    · exact idBlocks.moves_iff_drop.mpr ⟨i, hi, hf, rfl⟩
    · exact idBlocks.moves_iff_take.mpr ⟨i, hi, hl, rfl⟩

theorem ne_of_moves {p q : List B32 × List B32}
    (h : idBlocks.Moves removedMark p q ∨ idBlocks.Moves removedMark q p) : p.1 ≠ q.1 := by
  intro heq
  rcases h with ⟨a, l, hm, -, -⟩ | ⟨a, l, hm, -, -⟩ <;> simp [heq] at hm

/-- **The bytes of a claim are those of no other that passes the checks exactly if** no other cut of
its lists does. -/
theorem HoldingsManifest.signingBytes_unique_iff (m : HoldingsManifest) :
    (∀ m' : HoldingsManifest, m'.verify = true → m'.signingBytes = m.signingBytes → m' = m)
      ↔ m.body.Uncut := by
  obtain ⟨node, version, body⟩ := m
  constructor
  · intro hunique
    cases body with
    | snapshot cids => trivial
    | diff added removed prev =>
      refine (Body.uncut_diff_iff (p := (added, removed))).mpr fun q hmoves => ?_
      by_contra hpasses
      have hbytes := Body.signingBytes_eq_of_moves prev hmoves
      have heq := hunique ⟨node, version, .diff q.1 q.2 prev⟩
        ((verify_diff node version q prev).trans (Bool.eq_true_of_not_eq_false hpasses))
        (signingBytes_eq_iff.mpr ⟨rfl, rfl, hbytes.symm⟩)
      exact ne_of_moves hmoves (Body.diff.inj (HoldingsManifest.mk.inj heq).2.2).1.symm
  · rintro huncut ⟨node', version', body'⟩ hverify hbytes
    obtain ⟨rfl, rfl, hbody⟩ := signingBytes_eq_iff.mp hbytes
    rcases Body.signingBytes_eq hbody with rfl | ⟨p, q, prev, rfl, rfl, hmoves⟩
    · rfl
    · have hfails := Body.uncut_diff_iff.mp huncut p hmoves.symm
      exact absurd (hverify.symm.trans ((verify_diff _ _ p prev).trans hfails)) (by decide)

/-! ## One signature for two diffs -/

def markedId : B32 := .truncate (3 * 256 ^ 31 + 5)

def otherId : B32 := .truncate (9 * 256 ^ 31)

def oneForOne : HoldingsManifest := ⟨1, 2, .diff [markedId] [otherId] 7⟩

def twoGone : HoldingsManifest := ⟨1, 2, .diff [] [.truncate (5 * 256 + 3), otherId] 7⟩

/-- **A signature on one diff validates another**: that an id came is read as that one went. -/
theorem signature_validates_other_diff :
    oneForOne.verify = true ∧ twoGone ≠ oneForOne ∧ twoGone.signingBytes = oneForOne.signingBytes
      ∧ (SignedManifest.mk twoGone
        (SigScheme.transparent.sign (1 : B32) oneForOne.signingBytes)).verify .transparent
          = true := by
  decide +kernel

end Zephcraft.Noded
