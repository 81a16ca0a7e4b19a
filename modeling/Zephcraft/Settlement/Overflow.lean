import Zephcraft.Settlement.Reports

/-!
# Settlement/Overflow — when reading the reports can stop a settle

A settle adds `u64`s in two places: the totals of a proof's consumers are summed when the proof is
verified, and the allocation loop adds what a cheque draws to its accumulators.
-/

namespace Zephcraft.Settlement

open Zephcraft.Core Reward SettlementStore List Except

/-! ## One proof -/

def consumers (proof : List ServingCheque) : List B32 := (proof.map ServingCheque.consumer).dedup

/-- The highest total a proof shows for a consumer. -/
def highest (proof : List ServingCheque) (k : B32) : U64 :=
  ((proof.filter fun c => c.consumer = k).map ServingCheque.cumulativeBytes).foldl max 0

/-- What the highest totals of a proof's consumers add up to. -/
def shown (proof : List ServingCheque) : ℕ :=
  ((consumers proof).map fun k => (highest proof k).val).sum

/-- A proof that verifies sums to a `u64`. -/
def ProofFits (S : SigScheme) (node : B32) (proof : List ServingCheque) : Prop :=
  (∀ c ∈ proof, backs S node c) → shown proof < 2 ^ 64
deriving Decidable

/-- A proof that verifies, and shows `served` bytes. -/
def Proves (S : SigScheme) (node : B32) (proof : List ServingCheque) (served : U64) : Prop :=
  (∀ c ∈ proof, backs S node c) ∧ shown proof = served.val
deriving Decidable

variable (proof : List ServingCheque) (k : B32)

theorem highest_concat (c : ServingCheque) (k : B32) :
    highest (proof ++ [c]) k
      = if c.consumer = k then max (highest proof k) c.cumulativeBytes else highest proof k := by
  by_cases h : c.consumer = k <;> simp [highest, h]

theorem getD_foldl_raiseConsumer : (proof.foldl raiseConsumer ∅).getD k 0 = highest proof k := by
  induction proof using reverseRecOn with
  | nil => rfl
  | append_singleton proof c ih =>
    rw [foldl_concat, raiseConsumer, Std.ExtTreeMap.getD_insert, highest_concat, ih]
    by_cases h : c.consumer = k
    · subst h
      simp [ih]
    · simp [h]

theorem isSome_foldl_raiseConsumer : (proof.foldl raiseConsumer ∅)[k]?.isSome
    ↔ k ∈ consumers proof := by
  induction proof using reverseRecOn with
  | nil => simp [consumers]
  | append_singleton proof c ih =>
    rw [foldl_concat, raiseConsumer, BTreeMap.getElem?_insert]
    by_cases h : c.consumer = k
    · simp [h, consumers]
    · simpa [h, Ne.symm h, consumers] using ih

theorem total_foldl_raiseConsumer :
    BTreeMap.total (fun _ (v : U64) => v.val) (proof.foldl raiseConsumer ∅) = shown proof := by
  refine BTreeMap.total_eq_sum_map _ (nodup_dedup _) fun k v => ?_
  rw [← isSome_foldl_raiseConsumer, ← getD_foldl_raiseConsumer,
    Std.ExtTreeMap.getD_eq_getD_getElem?]
  cases (proof.foldl raiseConsumer ∅)[k]? <;> simp

theorem foldlM_backs (S : SigScheme) (node : B32) (proof : List ServingCheque)
    (m : BTreeMap B32 U64) :
    proof.foldlM (fun m c => if backs S node c then some (raiseConsumer m c) else none) m
      = if ∀ c ∈ proof, backs S node c then some (proof.foldl raiseConsumer m) else none := by
  induction proof generalizing m with
  | nil => simp
  | cons c proof ih =>
    by_cases h : backs S node c
    · simp [h, ih]
    · simp [h]

theorem provenCumulative_eq_ok {S : SigScheme} {node : B32} {proof : List ServingCheque} :
    (∃ v, provenCumulative S node proof = .ok v) ↔ ProofFits S node proof := by
  rw [provenCumulative, foldlM_backs, ProofFits, ← total_foldl_raiseConsumer]
  by_cases h : ∀ c ∈ proof, backs S node c
  · have hsum := Word.exists_sumOrPanic_eq_ok
      (l := (proof.foldl raiseConsumer ∅).toList.map Prod.snd)
    rw [map_map] at hsum
    rw [if_pos h, BTreeMap.total]
    exact exists_map_eq_ok.trans (hsum.trans ⟨fun hlt _ => hlt, fun hlt => hlt h⟩)
  · rw [if_neg h]
    exact ⟨fun _ h' => absurd h' h, fun _ => ⟨none, rfl⟩⟩

theorem eq_some_iff_proves {S : SigScheme} {node : B32} {proof : List ServingCheque}
    {v : Option U64} (h : provenCumulative S node proof = .ok v) (served : U64) :
    v = some served ↔ Proves S node proof served := by
  rw [provenCumulative, foldlM_backs] at h
  by_cases hb : ∀ c ∈ proof, backs S node c
  · rw [if_pos hb] at h
    obtain ⟨sum, hsum, rfl⟩ : ∃ sum, Word.sumOrPanic ((proof.foldl raiseConsumer ∅).toList.map
        Prod.snd) = .ok sum ∧ some sum = v := by
      obtain ⟨sum, hsum, h⟩ := Except.bind_eq_ok.mp (by simpa only [map_eq_pure_bind] using h)
      exact ⟨sum, hsum, Except.ok.inj h⟩
    have hs : sum.val = shown proof := by
      rw [Word.sumOrPanic_eq_ok.mp hsum, map_map, ← total_foldl_raiseConsumer]
      rfl
    rw [Proves, and_iff_right hb, Option.some.injEq, Fin.ext_iff, hs]
  · rw [if_neg hb] at h
    obtain rfl : none = v := Except.ok.inj h
    simp [Proves, hb]

namespace Board

/-! ## One chain -/

/-- The reports that a scan of the payloads comes to verify, with the cheques of their proofs. -/
def resolved (board : Board) : List Bytes → List (SettleReport × List ServingCheque)
  | [] => []
  | payload :: rest =>
    match board.decodeReport payload with
    | none => board.resolved rest
    | some report =>
      match board.resolve report.proof with
      | none => []
      | some none => board.resolved rest
      | some (some cheques) => (report, cheques) :: board.resolved rest

/-- The reports among them whose proof shows what they say was served. -/
def proven (board : Board) (S : SigScheme) (account : B32) (payloads : List Bytes) :
    List VerifiedReport :=
  ((board.resolved payloads).filter fun p => Proves S account p.2 p.1.servedCumulative).map fun p =>
    ⟨p.1.epoch, p.1.paidCumulative, p.1.servedCumulative, p.2⟩

variable (board : Board) (S : SigScheme) (epoch : U64)

theorem scan_eq_ok (account : B32) (payloads : List Bytes) :
    (∃ r, board.scan S account payloads = .ok r)
      ↔ ∀ p ∈ board.resolved payloads, ProofFits S account p.2 := by
  induction payloads with
  | nil => simp [scan, resolved, pure, Except.pure]
  | cons payload rest ih =>
    rw [scan, resolved]
    cases board.decodeReport payload with
    | none => exact exists_bind_pure_eq_ok.trans ih
    | some report =>
      dsimp only
      cases board.resolve report.proof with
      | none => simp [pure, Except.pure]
      | some cheques =>
        cases cheques with
        | none => exact exists_bind_pure_eq_ok.trans ih
        | some cheques =>
          rw [forall_mem_cons, ← ih, ← provenCumulative_eq_ok]
          constructor
          · rintro ⟨r, hr⟩
            obtain ⟨total, ht, hr⟩ := Except.bind_eq_ok.mp hr
            obtain ⟨p, hp, -⟩ := Except.bind_eq_ok.mp hr
            exact ⟨⟨total, ht⟩, ⟨p, hp⟩⟩
          · rintro ⟨⟨total, ht⟩, ⟨p, hp⟩⟩
            simp only [ht, hp, bind, Except.bind]
            split <;> exact ⟨_, rfl⟩

/-- **A scan returns the proven reports**, and leaves nothing it could verify: what is left starts,
if at all, with a failed fetch. -/
theorem scan_spec {board : Board} {S : SigScheme} {account : B32} {payloads : List Bytes}
    {n : ℕ} {fresh : List VerifiedReport} (h : board.scan S account payloads = .ok (n, fresh)) :
    fresh = board.proven S account payloads ∧ board.resolved (payloads.drop n) = [] := by
  induction payloads generalizing n fresh with
  | nil =>
    obtain ⟨rfl, rfl⟩ := Prod.ext_iff.mp (Except.ok.inj h)
    exact ⟨rfl, rfl⟩
  | cons payload rest ih =>
    revert h
    rw [scan, proven, resolved]
    cases hre : board.decodeReport payload with
    | none =>
      intro h
      obtain ⟨⟨m, found⟩, hr, h⟩ := Except.bind_eq_ok.mp h
      obtain ⟨rfl, rfl⟩ := Prod.ext_iff.mp (Except.ok.inj h)
      exact ih hr
    | some report =>
      dsimp only
      cases hpr : board.resolve report.proof with
      | none =>
        intro h
        obtain ⟨rfl, rfl⟩ := Prod.ext_iff.mp (Except.ok.inj h)
        exact ⟨rfl, by simp [resolved, hre, hpr]⟩
      | some cheques =>
        cases cheques with
        | none =>
          intro h
          obtain ⟨⟨m, found⟩, hr, h⟩ := Except.bind_eq_ok.mp h
          obtain ⟨rfl, rfl⟩ := Prod.ext_iff.mp (Except.ok.inj h)
          exact ih hr
        | some cheques =>
          intro h
          obtain ⟨total, ht, h⟩ := Except.bind_eq_ok.mp h
          obtain ⟨⟨m, found⟩, hr, h⟩ := Except.bind_eq_ok.mp h
          obtain ⟨rfl, hl⟩ := ih hr
          have hp := eq_some_iff_proves ht report.servedCumulative
          dsimp only at h
          split at h <;> rename_i hc <;> rw [hp] at hc <;>
            obtain ⟨rfl, rfl⟩ := Prod.ext_iff.mp (Except.ok.inj h) <;>
            exact ⟨by simp [hc, proven], hl⟩

/-! ## Every participant -/

/-- The part of an account's chain a settle has still to scan. -/
def unread (board : Board) (caches : BTreeMap B32 ReportCache) (account : B32) : List Bytes :=
  (board.sequences[account]?.getD []).drop (caches.getD account {}).nextNonce

/-- The account's unread reports can be verified. -/
def ReportsFit (board : Board) (S : SigScheme) (caches : BTreeMap B32 ReportCache)
    (account : B32) : Prop :=
  ∀ p ∈ board.resolved (board.unread caches account), ProofFits S account p.2
deriving Decidable

/-- What an account has on the board up to `epoch`: the latest of its proven reports, with the paid
total capped at what the ledger saw it pay. -/
def standing (board : Board) (S : SigScheme) (caches : BTreeMap B32 ReportCache)
    (epoch : U64) (account : B32) : Option (U64 × List ServingCheque) :=
  board.sequences[account]?.bind fun _ =>
    (latest epoch ((caches.getD account {}).verified
      ++ board.proven S account (board.unread caches account))).map fun v =>
        (min v.paidCumulative (board.paidTotal account), v.cheques)

def paidOn (board : Board) (S : SigScheme) (caches : BTreeMap B32 ReportCache)
    (epoch : U64) (participants : List B32) : List (B32 × U64) :=
  participants.flatMap fun account =>
    ((board.standing S caches epoch account).map fun p => (account, p.1)).toList

def chequesOn (board : Board) (S : SigScheme) (caches : BTreeMap B32 ReportCache)
    (epoch : U64) (participants : List B32) : List BoardCheque :=
  participants.flatMap fun account =>
    (board.standing S caches epoch account).elim [] fun p => p.2.map ServingCheque.toBoard

/-- Two caches of one board: what has been read may differ, what there is to find does not. -/
structure SameBoard (board : Board) (S : SigScheme) (epoch : U64)
    (caches caches' : BTreeMap B32 ReportCache) : Prop where
  fits : ∀ b, board.ReportsFit S caches' b ↔ board.ReportsFit S caches b
  standing : ∀ b, board.standing S caches' epoch b = board.standing S caches epoch b

theorem cumulativesOf_eq_ok (caches : BTreeMap B32 ReportCache) (account : B32) (epoch : U64) :
    (∃ r, board.cumulativesOf S caches account epoch = .ok r)
      ↔ board.ReportsFit S caches account := by
  rw [cumulativesOf, ReportsFit, unread]
  cases board.sequences[account]? with
  | none => simp [resolved, pure, Except.pure]
  | some payloads => exact exists_bind_pure_eq_ok.trans (scan_eq_ok board S account _)

/-- **Reading an account** finds its standing, and moves the cache without changing what there is to
find. -/
theorem cumulativesOf_spec {board : Board} {S : SigScheme}
    {caches caches' : BTreeMap B32 ReportCache} {account : B32} {epoch : U64}
    {found : Option (U64 × List ServingCheque)}
    (h : board.cumulativesOf S caches account epoch = .ok (caches', found)) :
    found = board.standing S caches epoch account ∧ board.SameBoard S epoch caches caches' := by
  have hfit := (board.cumulativesOf_eq_ok S caches account epoch).mp ⟨_, h⟩
  rw [cumulativesOf] at h
  split at h
  · rename_i hseq
    obtain ⟨rfl, rfl⟩ := Prod.ext_iff.mp (Except.ok.inj h)
    exact ⟨by simp [standing, hseq], ⟨fun _ => Iff.rfl, fun _ => rfl⟩⟩
  · rename_i payloads hseq
    obtain ⟨⟨n, fresh⟩, hs, h⟩ := Except.bind_eq_ok.mp h
    obtain ⟨rfl, rfl⟩ := Prod.ext_iff.mp (Except.ok.inj h)
    obtain ⟨rfl, hl⟩ := scan_spec hs
    rw [drop_drop] at hl
    refine ⟨by simp [standing, unread, hseq], ⟨fun b => ?_, fun b => ?_⟩⟩
    · by_cases hb : account = b
      · subst hb
        refine iff_of_true ?_ hfit
        simp [ReportsFit, unread, hseq, hl]
      · simp [ReportsFit, unread, Std.ExtTreeMap.getD_insert, hb]
    · by_cases hb : account = b
      · subst hb
        simp [standing, proven, unread, hseq, hl]
      · simp [standing, unread, Std.ExtTreeMap.getD_insert, hb]

theorem readParticipant_eq_ok (r : Readings) (account : B32) :
    (∃ r', board.readParticipant S epoch r account = .ok r')
      ↔ board.ReportsFit S r.caches account := by
  rw [← board.cumulativesOf_eq_ok S r.caches account epoch, readParticipant]
  constructor
  · rintro ⟨r', h⟩
    obtain ⟨p, hp, -⟩ := Except.bind_eq_ok.mp h
    exact ⟨p, hp⟩
  · rintro ⟨⟨caches, found⟩, hp⟩
    rw [hp]
    cases found <;> exact ⟨_, rfl⟩

theorem readParticipant_spec {board : Board} {S : SigScheme} {epoch : U64} {r r' : Readings}
    {account : B32} (h : board.readParticipant S epoch r account = .ok r') :
    r'.paid = r.paid ++ board.paidOn S r.caches epoch [account]
      ∧ r'.cheques = r.cheques ++ board.chequesOn S r.caches epoch [account]
      ∧ board.SameBoard S epoch r.caches r'.caches := by
  obtain ⟨⟨caches, found⟩, hp, h⟩ := Except.bind_eq_ok.mp h
  obtain ⟨hf, hs⟩ := cumulativesOf_spec hp
  cases found <;> obtain rfl := Except.ok.inj h <;>
    exact ⟨by simp [paidOn, ← hf], by simp [chequesOn, ← hf], hs⟩

/-- **The reading returns exactly when every participant's unread reports fit.** -/
theorem foldlM_readParticipant_eq_ok (participants : List B32) (r : Readings) :
    (∃ r', participants.foldlM (board.readParticipant S epoch) r = .ok r')
      ↔ ∀ account ∈ participants, board.ReportsFit S r.caches account := by
  induction participants generalizing r with
  | nil => simp [pure, Except.pure]
  | cons account rest ih =>
    have hs : ∀ {r₁ : Readings}, board.readParticipant S epoch r account = .ok r₁ →
        ((∃ r', rest.foldlM (board.readParticipant S epoch) r₁ = .ok r')
          ↔ ∀ b ∈ rest, board.ReportsFit S r.caches b) := by
      intro r₁ h₁
      rw [ih]
      exact forall₂_congr fun b _ => (readParticipant_spec h₁).2.2.fits b
    simp only [foldlM_cons, Except.bind_eq_ok, forall_mem_cons]
    rw [← board.readParticipant_eq_ok S epoch r account]
    constructor
    · rintro ⟨r', r₁, h₁, h⟩
      exact ⟨⟨r₁, h₁⟩, (hs h₁).mp ⟨r', h⟩⟩
    · rintro ⟨⟨r₁, h₁⟩, h⟩
      obtain ⟨r', h⟩ := (hs h₁).mpr h
      exact ⟨r', r₁, h₁, h⟩

theorem foldlM_readParticipant_spec {board : Board} {S : SigScheme} {epoch : U64}
    {participants : List B32} {r r' : Readings}
    (h : participants.foldlM (board.readParticipant S epoch) r = .ok r') :
    r'.paid = r.paid ++ board.paidOn S r.caches epoch participants
      ∧ r'.cheques = r.cheques ++ board.chequesOn S r.caches epoch participants := by
  induction participants generalizing r with
  | nil =>
    obtain rfl : r = r' := Except.ok.inj h
    simp [paidOn, chequesOn]
  | cons account rest ih =>
    obtain ⟨r₁, h₁, h⟩ := Except.bind_eq_ok.mp (by simpa only [foldlM_cons] using h)
    obtain ⟨hp, hc, hs⟩ := readParticipant_spec h₁
    obtain ⟨hp', hc'⟩ := ih h
    refine ⟨?_, ?_⟩
    · rw [hp', hp]
      simp [paidOn, hs.standing]
    · rw [hc', hc]
      simp [chequesOn, hs.standing]

end Board

/-! ## The close -/

namespace SettlementStore

/-- What the cheques of a close will draw. -/
def allocationsAt (s : SettlementStore) (epoch : U64) (paid : List (B32 × U64))
    (cheques : List BoardCheque) : List (BoardCheque × U64) :=
  allocations epoch (paid.foldl (foldPaid epoch) (s, 0)).1.subs s.servedPairWm (chequeOrder cheques)

theorem frame_foldl_foldPaid (epoch : U64) (paid : List (B32 × U64)) (acc : SettlementStore × U64) :
    (paid.foldl (foldPaid epoch) acc).1.servedPairWm = acc.1.servedPairWm
      ∧ (paid.foldl (foldPaid epoch) acc).1.rewardable = acc.1.rewardable := by
  induction paid generalizing acc with
  | nil => exact ⟨rfl, rfl⟩
  | cons p paid ih =>
    obtain ⟨hwm, hrew⟩ := ih (foldPaid epoch acc p)
    rw [foldl_cons, hwm, hrew, foldPaid]
    split <;> exact ⟨rfl, rfl⟩

/-- **The gathering returns exactly when each consumer's spending and each provider's lifetime total
fit.** The epoch's own contributions are part of that total. -/
theorem gather_eq_ok (s : SettlementStore) (epoch : U64) (paid : List (B32 × U64))
    (cheques : List BoardCheque) :
    (∃ t, s.gather epoch paid cheques = .ok t)
      ↔ Fits BoardCheque.consumer ∅ (s.allocationsAt epoch paid cheques)
        ∧ Fits BoardCheque.provider s.rewardable (s.allocationsAt epoch paid cheques) := by
  obtain ⟨hwm, hrew⟩ := frame_foldl_foldPaid epoch paid (s, 0)
  have hl := foldlM_allocateCheque_eq_ok epoch (chequeOrder cheques)
    ⟨(paid.foldl (foldPaid epoch) (s, 0)).1, ∅, ∅⟩
  dsimp only at hl hwm hrew
  rw [hwm, hrew] at hl
  refine exists_bind_pure_eq_ok.trans (hl.trans ⟨And.right, fun h => ⟨?_, h⟩⟩)
  exact h.2.mono fun k => by simp

end SettlementStore

namespace Board

/-- **No `u64` addition of a settle overflows**: every proof is summed, and — unless the epoch is
already settled — the allocation loop comes to its end. -/
def NoOverflow (board : Board) (S : SigScheme) (caches : BTreeMap B32 ReportCache)
    (store : SettlementStore) (participants : List B32) (epoch : U64) : Prop :=
  ∃ r, board.readParticipants S caches participants epoch = .ok r
    ∧ (store.records[epoch]? = none → ∃ t, store.gather epoch r.paid r.cheques = .ok t)

theorem noOverflow_of_settleEpochState {board : Board} {S : SigScheme}
    {blake3 : Bytes → B32} {caches : BTreeMap B32 ReportCache} {store : SettlementStore}
    {participants : List B32} {epoch : U64}
    {out : BTreeMap B32 ReportCache × SettlementStore × RewardRecord}
    (h : board.settleEpochState S blake3 caches store participants epoch = .ok out) :
    board.NoOverflow S caches store participants epoch := by
  obtain ⟨r, hr, h⟩ := Except.bind_eq_ok.mp h
  obtain ⟨p, hp, -⟩ := Except.bind_eq_ok.mp h
  refine ⟨r, mapError_eq_ok.mp hr, fun hrec => ?_⟩
  rw [settleEpochFromCheques, hrec] at hp
  obtain ⟨t, ht, -⟩ := Except.bind_eq_ok.mp hp
  exact ⟨t, ht⟩

/-- **A settle is free of overflow exactly when every participant's unread reports fit and, for an
epoch still to be settled, so do the accumulators of the allocation loop.** -/
theorem noOverflow_iff_sums_fit (board : Board) (S : SigScheme)
    (caches : BTreeMap B32 ReportCache) (store : SettlementStore) (participants : List B32)
    (epoch : U64) :
    board.NoOverflow S caches store participants epoch
      ↔ (∀ account ∈ participants, board.ReportsFit S caches account)
        ∧ (store.records[epoch]? = none →
            let drawn := store.allocationsAt epoch (board.paidOn S caches epoch participants)
              (board.chequesOn S caches epoch participants)
            Fits BoardCheque.consumer ∅ drawn
              ∧ Fits BoardCheque.provider store.rewardable drawn) := by
  rw [← board.foldlM_readParticipant_eq_ok S epoch participants ⟨caches, [], []⟩]
  dsimp only
  rw [← gather_eq_ok]
  have hread : ∀ {r}, board.readParticipants S caches participants epoch = .ok r →
      r.paid = board.paidOn S caches epoch participants
        ∧ r.cheques = board.chequesOn S caches epoch participants := by
    intro r hr
    simpa using foldlM_readParticipant_spec hr
  constructor
  · rintro ⟨r, hr, hclose⟩
    obtain ⟨hpaid, hcheques⟩ := hread hr
    exact ⟨⟨r, hr⟩, hpaid ▸ hcheques ▸ hclose⟩
  · rintro ⟨⟨r, hr⟩, hclose⟩
    obtain ⟨hpaid, hcheques⟩ := hread hr
    refine ⟨r, hr, ?_⟩
    rw [hpaid, hcheques]
    exact hclose

/-- Two consumers of node 1, each signing for half of what a `u64` holds. -/
def halfAndHalf : List ServingCheque :=
  [.sign .transparent (2 : B32) 1 (2 ^ 63) 10, .sign .transparent (3 : B32) 1 (2 ^ 63) 11]

/-- A board on which node 1 has committed one report, with that proof. -/
def poisoned : Board where
  decodeReport _ := some ⟨0, 0, 0, .inline halfAndHalf⟩
  decodeCheques _ := none
  fetch _ := none
  sequences := (∅ : BTreeMap B32 (List Bytes)).insert 1 [[]]
  paidTotal _ := 0

/-- **One report of valid cheques stops every settle that reads it.** -/
theorem poisoned_stops_settling :
    (∀ c ∈ halfAndHalf, c.verify .transparent) ∧ ¬ poisoned.NoOverflow .transparent ∅ .new [1] 1
      ∧ ∀ blake3, ∀ out, poisoned.settleEpochState .transparent blake3 ∅ .new [1] 1 ≠ .ok out := by
  have hstop : ¬ poisoned.NoOverflow .transparent ∅ .new [1] 1 := by
    rintro ⟨r, hr, -⟩
    have hfit := (foldlM_readParticipant_eq_ok poisoned .transparent 1 [1] ⟨∅, [], []⟩).mp ⟨r, hr⟩
    exact absurd (hfit 1 (mem_singleton_self 1)) (by decide +kernel)
  exact ⟨by decide +kernel, hstop, fun _ _ h => hstop (noOverflow_of_settleEpochState h)⟩

end Board

end Zephcraft.Settlement
