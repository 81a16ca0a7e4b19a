import Zephcraft.Foundations.Reader
import Zephcraft.Reward.Shares

/-!
# Reward/Program — the reward program, run natively and as WASM

`run_reward` decodes an input, computes the record and encodes it. The node runs it natively, in a
build where an overflow panics; a verifier runs it as WASM, in a build where it wraps around, and
hands it the input through a buffer of 1 MiB.
-/

namespace Zephcraft.Reward

open List Option Reader RewardInput Word

/-! ## The input and the record as bytes -/

namespace Contribution

def read : Reader Contribution := do
  let provider ← bytes32
  let bytes ← word 64
  let cumulativeBytes ← word 64
  pure ⟨provider, bytes, cumulativeBytes⟩

theorem takes_read : Reader.Takes read 1 := by
  have h : Reader.Takes read (32 + (0 + (0 + 0))) :=
    takes_bytes32.bind fun _ => (takes_word 64).bind fun _ => (takes_word 64).bind fun _ =>
      takes_pure _
  exact h.mono (by norm_num)

end Contribution

def Entitlement.read : Reader Entitlement := do
  let consumer ← bytes32
  let spent ← word 64
  let remaining ← word 64
  pure ⟨consumer, spent, remaining⟩

def readMark : Reader (B32 × U64) := do
  let account ← bytes32
  let mark ← word 64
  pure (account, mark)

def readServedMark : Reader ServedWatermark := do
  let provider ← bytes32
  let consumer ← bytes32
  let mark ← word 64
  pure ((provider, consumer), mark)

def readClaim : Reader (U64 × B32) := do
  let epoch ← word 64
  let provider ← bytes32
  pure (epoch, provider)

def IssuanceParams.read : Reader IssuanceParams := do
  let tokensPerDay ← word 64
  let epochsPerDay ← word 64
  let totalCap ← word 64
  pure ⟨tokensPerDay, epochsPerDay, totalCap⟩

/-- Lengths are a `usize`, of `ptr` bits on the target. -/
def EconomicSnapshot.read (ptr : ℕ) : Reader EconomicSnapshot := do
  let pool ← word 64
  let minted ← word 64
  let paidWatermarks ← vec ptr readMark
  let servedWatermarks ← vec ptr readServedMark
  let seedingNext ← vec ptr readMark
  let claimed ← vec ptr readClaim
  pure ⟨pool, minted, paidWatermarks, servedWatermarks, seedingNext, claimed⟩

/-- `RewardInput`, in the order of its fields. -/
def RewardInput.read (ptr : ℕ) : Reader RewardInput := do
  let epoch ← word 64
  let pool ← word 64
  let contributions ← vec ptr Contribution.read
  let entitlements ← vec ptr Entitlement.read
  let cumulativeIssued ← word 64
  let issuance ← IssuanceParams.read
  let paidMarks ← vec ptr readMark
  let servedMarks ← vec ptr readServedMark
  let paid ← word 64
  let claimPayouts ← word 64
  let state ← EconomicSnapshot.read ptr
  pure ⟨epoch, pool, contributions, entitlements, cumulativeIssued, issuance, paidMarks,
    servedMarks, paid, claimPayouts, state⟩

/-- `postcard::from_bytes`; what follows the input is not looked at. -/
def RewardInput.decode (ptr : ℕ) (bytes : Bytes) : Option RewardInput :=
  (read ptr bytes).map Prod.fst

theorem RewardInput.widens_read {ptr ptr' : ℕ} (h : ptr ≤ ptr') :
    Reader.Widens (read ptr) (read ptr') := by
  have hstate : Reader.Widens (EconomicSnapshot.read ptr) (EconomicSnapshot.read ptr') := by
    refine (Reader.Widens.refl _).bind fun _ => (Reader.Widens.refl _).bind fun _ => ?_
    iterate 4 refine (widens_vec h _).bind fun _ => ?_
    exact .refl _
  refine (Reader.Widens.refl _).bind fun _ => (Reader.Widens.refl _).bind fun _ => ?_
  refine (widens_vec h _).bind fun _ => (widens_vec h _).bind fun _ => ?_
  refine (Reader.Widens.refl _).bind fun _ => (Reader.Widens.refl _).bind fun _ => ?_
  refine (widens_vec h _).bind fun _ => (widens_vec h _).bind fun _ => ?_
  exact (Reader.Widens.refl _).bind fun _ => (Reader.Widens.refl _).bind fun _ =>
    hstate.bind fun _ => .refl _

/-- **What is decoded with shorter lengths is decoded alike with longer ones.** -/
theorem RewardInput.decode_mono {ptr ptr' : ℕ} (h : ptr ≤ ptr') {bytes : Bytes}
    {input : RewardInput} (hd : decode ptr bytes = some input) :
    decode ptr' bytes = some input := by
  obtain ⟨read, hr, rfl⟩ := map_eq_some_iff.mp hd
  exact map_eq_some_iff.mpr ⟨read, widens_read h _ _ hr, rfl⟩

def encodeVec {α : Type*} (encode : α → Bytes) (l : List α) : Bytes :=
  varint l.length ++ l.flatMap encode

def encodeMark (e : B32 × U64) : Bytes := e.1.toBytes ++ varint e.2.val

def encodeServedMark (e : ServedWatermark) : Bytes :=
  e.1.1.toBytes ++ e.1.2.toBytes ++ varint e.2.val

def Share.encode (s : Share) : Bytes :=
  s.provider.toBytes ++ varint s.amount.val ++ varint s.bytes.val ++ varint s.cumulativeBytes.val

def Entitlement.encode (e : Entitlement) : Bytes :=
  e.consumer.toBytes ++ varint e.spent.val ++ varint e.remaining.val

def EconomicSnapshot.encode (s : EconomicSnapshot) : Bytes :=
  varint s.pool.val ++ varint s.minted.val ++ encodeVec encodeMark s.paidWatermarks
    ++ encodeVec encodeServedMark s.servedWatermarks ++ encodeVec encodeMark s.seedingNext
    ++ encodeVec (fun e => varint e.1.val ++ e.2.toBytes) s.claimed

/-- `postcard::to_allocvec` -/
def RewardRecord.encode (r : RewardRecord) : Bytes :=
  varint r.epoch.val ++ varint r.pool.val ++ encodeVec Share.encode r.shares
    ++ encodeVec Entitlement.encode r.entitlements
    ++ varint r.issued.val ++ (r.checkpoint.elim [0] fun s => 1 :: s.encode)
      ++ encodeVec encodeMark r.paidMarks ++ encodeVec encodeServedMark r.servedMarks
        ++ varint r.committedPool.val ++ r.stateHash.toBytes
    ++ varint r.cumulativeIssued.val

/-! ## Builds -/

/-- What `+` and `*` do on a `u128` in a build. -/
structure Build where
  add : U128 → U128 → Except Panic U128
  mul : U128 → U128 → Except Panic U128

namespace Build

/-- `overflow-checks = true`, as the node is built. -/
def checked : Build := ⟨addOrPanic, mulOrPanic⟩

/-- A release build without overflow checks, as the WASM program is. -/
def wrapping : Build :=
  ⟨fun a b => .ok (truncate (a.val + b.val)), fun a b => .ok (truncate (a.val * b.val))⟩

variable (b : Build)

def addContribution (m : BTreeMap B32 (U128 × U64)) (c : Contribution) :
    Except Panic (BTreeMap B32 (U128 × U64)) := do
  let e := m.getD c.provider (0, 0)
  let bytes ← b.add e.1 c.bytes.toU128
  return m.insert c.provider (bytes, max e.2 c.cumulativeBytes)

def shareAmount (distributable : U64) (total bytes : U128) : Except Panic U64 :=
  if total = 0 then return 0
  else do
    let product ← b.mul distributable.toU128 bytes
    return truncate (product.val / total.val)

def sharesOf (distributable : U64) (total : U128) (providers : BTreeMap B32 (U128 × U64)) :
    Except Panic (List Share) :=
  providers.toList.mapM fun e => do
    let amount ← b.shareAmount distributable total e.2.1
    return ⟨e.1, amount, truncate e.2.1.val, e.2.2⟩

/-- `compute`, as the build runs it. -/
def compute (blake3 : Bytes → B32) (input : RewardInput) : Except Panic RewardRecord := do
  let providers ← input.contributions.foldlM b.addContribution ∅
  let total ← (providers.toList.map fun e => e.2.1).foldlM b.add 0
  let issued := issuanceFor input.pool input.cumulativeIssued (0 < total) input.issuance
  let shares ← b.sharesOf (input.pool.satAdd issued) total providers
  return recordOf blake3 input issued shares

/-- `run_reward`: nothing where the input cannot be decoded. -/
def runReward (ptr : ℕ) (blake3 : Bytes → B32) (bytes : Bytes) : Option (Except Panic Bytes) :=
  (RewardInput.decode ptr bytes).map fun input => (b.compute blake3 input).map RewardRecord.encode

end Build

/-- The buffer the program reads its input into: what does not fit it is not read at all. -/
def readHost (bytes : Bytes) : Bytes := if bytes.length ≤ 2 ^ 20 then bytes else []

/-- `DEFAULT_FUEL` -/
def defaultFuel : ℕ := 10000000

/-- What ends a run of the program without an output. -/
inductive Trap where
  | outOfFuel
  | panicked (p : Panic)

/-- The native program, on a 64-bit target. -/
def nativeRun (blake3 : Bytes → B32) (bytes : Bytes) : Option (Except Panic Bytes) :=
  Build.checked.runReward 64 blake3 bytes

/-- The WASM program, on a 32-bit target, as `run_program` runs it: what it commits, or nothing. The
fuel that it takes on an input is `fuelUsed`. -/
def wasmRun (fuelUsed : Bytes → ℕ) (blake3 : Bytes → B32) (bytes : Bytes) : Except Trap Bytes :=
  if defaultFuel < fuelUsed bytes then .error .outOfFuel
  else
    match Build.wrapping.runReward 32 blake3 (readHost bytes) with
    | none => .ok []
    | some (.ok out) => .ok out
    | some (.error p) => .error (.panicked p)

section Runs

variable {blake3 : Bytes → B32} {input : RewardInput} {r : RewardRecord} {bytes : Bytes}

theorem compute_checked : Build.checked.compute blake3 input = compute blake3 input := rfl

/-! ## A run without overflow is the same in every build -/

namespace Build

/-- What is returned with overflow checks is returned without. -/
structure Extends (b : Build) : Prop where
  add : ∀ x y z, addOrPanic x y = .ok z → b.add x y = .ok z
  mul : ∀ x y z, mulOrPanic x y = .ok z → b.mul x y = .ok z

theorem extends_wrapping : Extends wrapping where
  add x y z h := by
    have hz := addOrPanic_eq_ok.mp h
    have hsum : (truncate (x.val + y.val) : U128) = z :=
      Fin.ext ((Nat.mod_eq_of_lt (hz ▸ z.isLt)).trans hz.symm)
    exact congrArg Except.ok hsum
  mul x y z h := by
    have hz := mulOrPanic_eq_ok.mp h
    have hp : (truncate (x.val * y.val) : U128) = z :=
      Fin.ext ((Nat.mod_eq_of_lt (hz ▸ z.isLt)).trans hz.symm)
    exact congrArg Except.ok hp

theorem foldlM_of_step {α β : Type} {f g : β → α → Except Panic β} {l : List α} {s s' : β}
    (hs : ∀ s a s', f s a = .ok s' → g s a = .ok s') (h : l.foldlM f s = .ok s') :
    l.foldlM g s = .ok s' := by
  induction l generalizing s with
  | nil => exact h
  | cons a l ih =>
    rw [foldlM_cons] at h ⊢
    obtain ⟨s₁, hs₁, h⟩ := Except.bind_eq_ok.mp h
    exact Except.bind_eq_ok.mpr ⟨s₁, hs s a s₁ hs₁, ih h⟩

variable {b : Build}

theorem Extends.addContribution (h : Extends b) (m : BTreeMap B32 (U128 × U64)) (c : Contribution)
    (m' : BTreeMap B32 (U128 × U64)) (hm : Reward.addContribution m c = .ok m') :
    b.addContribution m c = .ok m' := by
  obtain ⟨bytes, hb, hm⟩ := Except.bind_eq_ok.mp hm
  exact Except.bind_eq_ok.mpr ⟨bytes, h.add _ _ _ hb, hm⟩

theorem Extends.shareAmount (h : Extends b) {distributable amount : U64} {total bytes : U128}
    (hs : Reward.shareAmount distributable total bytes = .ok amount) :
    b.shareAmount distributable total bytes = .ok amount := by
  rw [Reward.shareAmount] at hs
  rw [Build.shareAmount]
  split_ifs at hs ⊢ with hz
  · exact hs
  · obtain ⟨product, hp, hs⟩ := Except.bind_eq_ok.mp hs
    exact Except.bind_eq_ok.mpr ⟨product, h.mul _ _ _ hp, hs⟩

theorem Extends.compute (h : Extends b) (hr : Reward.compute blake3 input = .ok r) :
    b.compute blake3 input = .ok r := by
  obtain ⟨providers, hp, hr⟩ := Except.bind_eq_ok.mp hr
  obtain ⟨total, ht, hr⟩ := Except.bind_eq_ok.mp hr
  obtain ⟨shares, hsh, hr⟩ := Except.bind_eq_ok.mp hr
  refine Except.bind_eq_ok.mpr ⟨providers, foldlM_of_step h.addContribution hp,
    Except.bind_eq_ok.mpr ⟨total, foldlM_of_step h.add ht, Except.bind_eq_ok.mpr ⟨shares, ?_, hr⟩⟩⟩
  refine List.mapM_eq_ok.mpr ((List.mapM_eq_ok.mp hsh).imp fun e s hs => ?_)
  obtain ⟨amount, ha, hs⟩ := Except.bind_eq_ok.mp hs
  exact Except.bind_eq_ok.mpr ⟨amount, h.shareAmount ha, hs⟩

end Build

/-! ## The runs -/

theorem length_contributions_le {ptr : ℕ} (h : RewardInput.decode ptr bytes = some input) :
    input.contributions.length ≤ bytes.length := by
  obtain ⟨⟨input, rest⟩, hr, rfl⟩ := map_eq_some_iff.mp h
  obtain ⟨epoch, s₁, he, hr⟩ := bind_eq_some.mp hr
  obtain ⟨pool, s₂, hp, hr⟩ := bind_eq_some.mp hr
  obtain ⟨contributions, s₃, hc, hr⟩ := bind_eq_some.mp hr
  have hlen := length_vec_le Contribution.takes_read hc
  have hf := takes_word 64 _ _ _ he
  have hs := takes_word 64 _ _ _ hp
  -- the fields behind the contributions do not change them
  iterate 8 obtain ⟨_, _, -, hr⟩ := bind_eq_some.mp hr
  obtain ⟨rfl, -⟩ : _ = input ∧ _ = rest := by simpa [pure, StateT.pure] using hr
  dsimp only
  omega

theorem bytes_of_compute (h : compute blake3 input = .ok r) :
    ∀ x ∈ r.shares, x.bytes = truncate (contributedBy input.contributions x.provider) := by
  obtain ⟨providers, total, shares, hp, -, -, hs, -, hr⟩ := compute_eq_ok h
  intro x hx
  obtain ⟨i, hi, rfl⟩ := mem_iff_getElem.mp (show x ∈ shares by rwa [hr] at hx)
  obtain ⟨hlen, hget⟩ := forall₂_iff_get.mp (List.mapM_eq_ok.mp hs)
  have hrow := Std.ExtTreeMap.mem_toList_iff_getElem?_eq_some.mp
    (show (_, _) ∈ providers.toList from List.get_mem _ ⟨i, hlen ▸ hi⟩)
  have hval := ((getElem?_byProvider hp _ _).mp hrow).2
  rw [get_eq_getElem] at hval
  obtain ⟨amount, -, hx⟩ := Except.bind_eq_ok.mp (hget i (hlen ▸ hi) hi)
  obtain hx : _ = shares[i] := by simpa [pure, Except.pure] using hx
  rw [← hx, ← val_getD_byProvider hp]
  dsimp only
  rw [hval]

theorem runReward_eq {b : Build} {ptr : ℕ} (h : RewardInput.decode ptr bytes = some input)
    (hr : b.compute blake3 input = .ok r) : b.runReward ptr blake3 bytes = some (.ok r.encode) := by
  rw [Build.runReward, h, map_some, hr]
  rfl

theorem RewardRecord.encode_ne_nil (r : RewardRecord) : r.encode ≠ [] := fun h => by
  have hlen := congrArg List.length h
  simp [RewardRecord.encode, B32.toBytes] at hlen

/-- A record is committed only within the fuel, for an input that fits the buffer and decodes with
32-bit lengths. -/
theorem decodes_of_wasmRun {fuelUsed : Bytes → ℕ}
    (h : wasmRun fuelUsed blake3 bytes = .ok r.encode) :
    bytes.length ≤ 2 ^ 20 ∧ (RewardInput.decode 32 bytes).isSome
      ∧ fuelUsed bytes ≤ defaultFuel := by
  rw [wasmRun] at h
  split_ifs at h with hfuel
  have hcommits : (RewardInput.decode 32 (readHost bytes)).isSome := by
    rw [Build.runReward] at h
    cases hd : RewardInput.decode 32 (readHost bytes) with
    | none =>
      rw [hd] at h
      exact absurd (Except.ok.inj h).symm r.encode_ne_nil
    | some _ => rfl
  rw [readHost] at hcommits
  split_ifs at hcommits with hlen
  · exact ⟨hlen, hcommits, not_lt.mp hfuel⟩
  · cases hcommits

end Runs

/-- **The native run and the WASM run agree, on the bytes that were contributed**, exactly when
every provider's bytes fit a `u64`, the input fits the buffer and decodes with lengths of 32 bits,
and the fuel lasts. -/
theorem runs_agree_iff (fuelUsed : Bytes → ℕ) (blake3 : Bytes → B32) {bytes : Bytes}
    (hlen : bytes.length < 2 ^ 64) {input : RewardInput}
    (h : RewardInput.decode 64 bytes = some input) :
    (∃ r, Build.checked.compute blake3 input = .ok r
        ∧ (∀ x ∈ r.shares, x.bytes.val = contributedBy input.contributions x.provider)
        ∧ nativeRun blake3 bytes = some (.ok r.encode)
        ∧ wasmRun fuelUsed blake3 bytes = .ok r.encode)
      ↔ (∀ p ∈ input.providers, contributedBy input.contributions p < 2 ^ 64)
        ∧ bytes.length ≤ 2 ^ 20 ∧ (RewardInput.decode 32 bytes).isSome
        ∧ fuelUsed bytes ≤ defaultFuel := by
  rw [compute_checked]
  constructor
  · rintro ⟨r, hr, hshares, -, hwasm⟩
    refine ⟨fun p hp => ?_, decodes_of_wasmRun hwasm⟩
    have hp' : p ∈ r.shares.map Share.provider := (amount_of_compute hr).1.mem_iff.mpr hp
    obtain ⟨x, hx, rfl⟩ := List.mem_map.mp hp'
    rw [← hshares x hx]
    exact x.bytes.isLt
  · rintro ⟨hbytes, hfits, hdecodes, hfuel⟩
    obtain ⟨r, hr⟩ : ∃ r, compute blake3 input = .ok r :=
      exists_compute_eq_ok.mpr (fits_of_contributedBy_lt ((length_contributions_le h).trans_lt hlen)
        hbytes)
    refine ⟨r, hr, fun x hx => ?_, runReward_eq h hr, ?_⟩
    · have hprovider := (amount_of_compute hr).1.mem_iff.mp (List.mem_map_of_mem hx)
      rw [bytes_of_compute hr x hx]
      exact Nat.mod_eq_of_lt (hbytes _ hprovider)
    · -- what the 32-bit program decodes is the same input
      obtain ⟨input', hinput'⟩ := isSome_iff_exists.mp hdecodes
      obtain rfl : input' = input :=
        Option.some.inj ((decode_mono (by norm_num) hinput').symm.trans h)
      rw [wasmRun, if_neg (not_lt.mpr hfuel), readHost, if_pos hfits,
        runReward_eq hinput' (Build.extends_wrapping.compute hr)]

/-- An input with a pool, and contributions of one provider. -/
def inputBytes (pool : ℕ) (contributed : List ℕ) : Bytes :=
  varint 1 ++ varint pool ++ encodeVec (fun n => (7 : B32).toBytes ++ varint n ++ varint 0)
    contributed -- no entitlements, no issuance, no marks and an empty state
    ++ List.replicate 15 0

theorem runs_agree_iff_oneProvider :
    ∃ input r, RewardInput.decode 64 (inputBytes 100 [3, 4]) = some input
      ∧ Build.checked.compute blake3 input = .ok r
      ∧ (∀ x ∈ r.shares, x.bytes.val = contributedBy input.contributions x.provider)
      ∧ nativeRun blake3 (inputBytes 100 [3, 4]) = some (.ok r.encode)
      ∧ wasmRun (fun bytes => 1000 * bytes.length) blake3 (inputBytes 100 [3, 4])
        = .ok r.encode := by
  have hdecode : ((RewardInput.decode 64 (inputBytes 100 [3, 4])).map RewardInput.contributions)
      = some [⟨7, 3, 0⟩, ⟨7, 4, 0⟩] := by decide +kernel
  obtain ⟨input, hinput, hcontributions⟩ := map_eq_some_iff.mp hdecode
  have hbytes : ∀ p ∈ input.providers, contributedBy input.contributions p < 2 ^ 64 := fun p _ =>
    (contributedBy_le input.contributions p).trans_lt (by rw [hcontributions]; decide)
  obtain ⟨r, hr, hrest⟩ :=
    (runs_agree_iff (fun bytes => 1000 * bytes.length) blake3 (by decide +kernel) hinput).mpr
    ⟨hbytes, by decide +kernel⟩
  exact ⟨input, r, hinput, hr, hrest⟩

/-- Two contributions of a provider, and a full pool. -/
def fullPool : Bytes := inputBytes (2 ^ 64 - 1) [2 ^ 64 - 1, 2 ^ 64 - 1]

/-- With a full pool the native run panics, the WASM run returns a record. -/
theorem runs_disagree :
    nativeRun blake3 fullPool = some (.error .overflow)
      ∧ ∃ out, out ≠ [] ∧ ∀ fuelUsed, fuelUsed fullPool ≤ defaultFuel →
        wasmRun fuelUsed blake3 fullPool = .ok out := by
  refine ⟨by decide +kernel, ?_⟩
  have hreturns : ((wasmRun (fun _ => 0) blake3 fullPool).toOption.map
      List.isEmpty) = some false := by
    decide +kernel
  obtain ⟨out, hout, hne⟩ := map_eq_some_iff.mp hreturns
  refine ⟨out, by simpa using hne, fun fuelUsed hfuel => ?_⟩
  have hok : wasmRun (fun _ => 0) blake3 fullPool = .ok out := by
    revert hout
    cases wasmRun (fun _ => 0) blake3 fullPool <;> simp [Except.toOption]
  rw [← hok, wasmRun, wasmRun, if_neg (not_lt.mpr hfuel), if_neg (Nat.not_lt_zero _)]

end Zephcraft.Reward
