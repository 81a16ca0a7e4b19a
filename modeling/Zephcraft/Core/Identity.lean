import Zephcraft.Foundations.Codec

/-!
# Core/Identity — node identities and their signatures

A node **is** its public key. The signature primitive is a parameter: what the development uses of
it is that signatures are 64 bytes and that a signature made with a key verifies under it.
-/

namespace Zephcraft.Core

/-- The signature primitive, with the two laws every deployment of it has. -/
structure SigScheme where
  Secret : Type
  nodeId : Secret → B32
  sign : Secret → Bytes → Bytes
  verify : B32 → Bytes → Bytes → Bool
  length_sign : ∀ k m, (sign k m).length = 64
  verify_sign : ∀ k m, verify (nodeId k) m (sign k m) = true

namespace SigScheme

/-- A signature field of a wire message: it must have the length of a signature and verify. -/
def verifyBytes (S : SigScheme) (key : B32) (msg sig : Bytes) : Bool :=
  sig.length = 64 && S.verify key msg sig

@[simp] theorem verifyBytes_sign (S : SigScheme) (k : S.Secret) (msg : Bytes) :
    S.verifyBytes (S.nodeId k) msg (S.sign k msg) = true := by
  simp [verifyBytes, S.length_sign, S.verify_sign]

/-- A checksum of a message, for the scheme below. -/
def checksum (msg : Bytes) : ℕ := msg.foldl (fun h b => (h * 257 + b.val + 1) % 2 ^ 256) 7

/-- The scheme in which a key is its own secret and a signature shows it beside a checksum of the
message — no security at all, but the two laws hold and everything computes. -/
def transparent : SigScheme where
  Secret := B32
  nodeId k := k
  sign k msg := k.toBytes ++ leBytes 32 (checksum msg)
  verify key msg sig := sig = key.toBytes ++ leBytes 32 (checksum msg)
  length_sign k msg := by simp [B32.toBytes]
  verify_sign k msg := by simp

end SigScheme

end Zephcraft.Core
