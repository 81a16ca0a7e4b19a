import Zephcraft.Com.BoardMerge
import Zephcraft.Com.Convergence
import Zephcraft.Com.GovernedValues
import Zephcraft.Com.RegistryVec
import Zephcraft.Core.Hlc
import Zephcraft.Dht.Lookup
import Zephcraft.Dht.Sequence
import Zephcraft.Economy.Expiry
import Zephcraft.Erasure.Honest
import Zephcraft.Noded.AttestStore
import Zephcraft.Noded.Collectors
import Zephcraft.Noded.Crash
import Zephcraft.Noded.DeathRepair
import Zephcraft.Noded.Earnings
import Zephcraft.Noded.Finality
import Zephcraft.Noded.FreeRider
import Zephcraft.Noded.FreeTier
import Zephcraft.Noded.HeadKinds
import Zephcraft.Noded.HeadResolve
import Zephcraft.Noded.HoldingsSignature
import Zephcraft.Noded.PinGate
import Zephcraft.Noded.Readers
import Zephcraft.Noded.Rendezvous
import Zephcraft.Noded.Resharding
import Zephcraft.Obj.ActiveSet
import Zephcraft.Obj.Dishonest
import Zephcraft.Obj.Ingest
import Zephcraft.Obj.Pins
import Zephcraft.Obj.Reconcile
import Zephcraft.Obj.Shed
import Zephcraft.Reward.Canonical
import Zephcraft.Reward.Program
import Zephcraft.Routing.Announce
import Zephcraft.Sched.Accounting
import Zephcraft.Settlement.AsOf
import Zephcraft.Settlement.Follow
import Zephcraft.Settlement.SelfDealing
import Zephcraft.Sql.Content
import Zephcraft.Sql.Refinement
import Zephcraft.Sql.Reopen
import Zephcraft.Sql.Sequence
import Zephcraft.Store.Evict
import Zephcraft.Swim.Census
import Zephcraft.Swim.Gossip
import Zephcraft.Swim.Refutation
import Zephcraft.Token.Conservation
import Zephcraft.Wire.Frame
