import Zephcraft.Foundations.Word

/-!
# Token/Supply — how much exists, and what the protocol holds

The supply counter is the one gate through which tokens come into existence; the pool is what the
protocol holds. Both are `u64` balances in base units.
-/

namespace Zephcraft.Token

/-- The supply ledger: what has been minted, and the ceiling on it. -/
structure SupplyState where
  minted : U64
  cap : U64

/-- The protocol's shared state: the supply and the tokens it holds. -/
structure ProtocolState where
  supply : SupplyState
  pool : U64

namespace SupplyState

variable (s : SupplyState)

def headroom : U64 := s.cap.satSub s.minted

/-- The mint gate: grants at most the headroom and advances the counter by what it granted. -/
def authorizeMint (want : U64) : SupplyState × U64 :=
  let granted := min want s.headroom
  ({ s with minted := s.minted.satAdd granted }, granted)

/-- Set the governed ceiling; what has been minted stays. -/
def setCap (cap : U64) : SupplyState := { s with cap := cap }

/-- Raise the counter to at least `value`, a figure from durable history. -/
def observeMinted (value : U64) : SupplyState :=
  { s with minted := max s.minted value }

theorem authorizeMint_of_le {s : SupplyState} {want : U64}
    (h : want.val ≤ s.cap.val - s.minted.val) :
    (s.authorizeMint want).2 = want ∧ (s.authorizeMint want).1.minted.val = s.minted.val + want.val
      ∧ (s.authorizeMint want).1.cap = s.cap := by
  have hmin : min want s.headroom = want := min_eq_left h
  have hcap := s.cap.isLt
  refine ⟨hmin, ?_, rfl⟩
  change (s.minted.satAdd (min want s.headroom)).val = _
  rw [hmin, Word.val_satAdd]
  omega

end SupplyState

namespace ProtocolState

def totalSupply (p : ProtocolState) : U64 := p.supply.minted

/-- Mint fresh tokens into the pool; returns what was granted. -/
def mintIntoPool (p : ProtocolState) (want : U64) : ProtocolState × U64 :=
  let (supply, granted) := p.supply.authorizeMint want
  ({ supply := supply, pool := p.pool.satAdd granted }, granted)

/-- Adopt a pool figure derived from the record chain. -/
def setPool (p : ProtocolState) (pool : U64) : ProtocolState := { p with pool := pool }

end ProtocolState

end Zephcraft.Token
