import Zephcraft.Settlement.Adopt

/-!
# Settlement/Claims — how often a share is released

A claim leaves a mark beside the record it drew on, and the mark is what stops the next one. Marks
go in two ways: with their record, when it expires, and all at once, when a checkpoint or a snapshot
replaces them.
-/

namespace Zephcraft.Settlement

open Reward SettlementStore Run

/-! ## What a call does to the records and the marks -/

/-- Between `s` and `s'` the records of `added` came in, and a mark went only with its record. -/
structure KeepsClaims (s s' : SettlementStore) (added : List U64) : Prop where
  records : ∀ e, s'.records.contains e = true → s.records.contains e = true ∨ e ∈ added
  claimed : ∀ k, s.claimed.contains k = true → s.records.contains k.1 = true →
    s'.records.contains k.1 = true → s'.claimed.contains k = true

variable {s s' : SettlementStore} {epoch : U64}

theorem KeepsClaims.of_eq (hr : s'.records = s.records) (hc : s'.claimed = s.claimed) :
    KeepsClaims s s' [] :=
  ⟨fun _ he => .inl (hr ▸ he), fun _ hk _ _ => hc ▸ hk⟩

theorem KeepsClaims.expire (s : SettlementStore) (epoch : U64) :
    KeepsClaims s (s.expire epoch) [] := by
  constructor
  · intro e he
    rw [Std.ExtTreeMap.contains_eq_isSome_getElem?, getElem?_expire] at he
    split at he
    · simp at he
    · exact .inl (by rwa [Std.ExtTreeMap.contains_eq_isSome_getElem?])
  · intro k hk hrec hrec'
    rw [Std.ExtTreeMap.contains_eq_isSome_getElem?, getElem?_expire] at hrec'
    rw [contains_expire, hk, hrec]
    by_cases hc : k.1 < cutoff epoch
    · simp [hc] at hrec'
    · simp [hc]

theorem KeepsClaims.insert {rec : RewardRecord} (hr : s'.records = s.records.insert epoch rec)
    (hc : ∀ k, s.claimed.contains k = true → s.records.contains k.1 = true
      → s'.claimed.contains k = true) :
    KeepsClaims s s' [epoch] := by
  refine ⟨fun e he => ?_, fun k hk hrec _ => hc k hk hrec⟩
  rw [hr, Std.ExtTreeMap.contains_insert, Bool.or_eq_true] at he
  rcases he with he | he
  · have heq : epoch = e := by simpa using he
    exact .inr (by simp [heq])
  · exact .inl he

theorem KeepsClaims.trans {s₁ : SettlementStore} {added : List U64} (h : KeepsClaims s s₁ [])
    (h' : KeepsClaims s₁ s' added) (hmem : ∀ e ∈ added, s.records.contains e = false) :
    KeepsClaims s s' added := by
  refine ⟨fun e he => (h'.records e he).imp (fun h₁ => ?_) id, fun k hk hrec hrec' => ?_⟩
  · exact (h.records e h₁).elim id fun hn => by simp at hn
  · rcases h'.records k.1 hrec' with h₁ | hadd
    · exact h'.claimed k (h.claimed k hk hrec h₁) h₁ hrec'
    · rw [hmem k.1 hadd] at hrec
      simp at hrec

def Call.adds (blake3 : Bytes → B32) (s : SettlementStore) : Call → List U64
  | .settle epoch paid cheques =>
    match s.records[epoch]?, s.settleEpochFromCheques blake3 epoch paid cheques with
    | none, .ok _ => [epoch]
    | _, _ => []
  | .adopt rec => [rec.epoch]
  | _ => []

theorem eq_of_mem_adds_settle {blake3 : Bytes → B32} {e : U64} {paid : List (B32 × U64)}
    {cheques : List BoardCheque} (h : e ∈ (Call.settle epoch paid cheques).adds blake3 s) :
    e = epoch := by
  simp only [Call.adds] at h
  split at h
  · exact List.mem_singleton.mp h
  · simp at h

def Call.releases (s : SettlementStore) : Call → List (U64 × B32)
  | .claim epoch provider => if (s.claim epoch provider).2 = 0 then [] else [(epoch, provider)]
  | _ => []

/-- Every mark of a record that `s` holds is in the snapshot. -/
def MarksIn (s : SettlementStore) (snap : EconomicSnapshot) : Prop :=
  ∀ k ∈ s.claimed.toList, s.records.contains k.1 = true → k ∈ snap.claimed

instance (s : SettlementStore) (snap : EconomicSnapshot) : Decidable (MarksIn s snap) :=
  List.decidableBAll (fun k : U64 × B32 => s.records.contains k.1 = true → k ∈ snap.claimed) _

/-- A call that replaces the marks — a checkpoint adopted, a snapshot restored — replaces them by a
set that has those of the records held. -/
def Call.KeepsMarks (s : SettlementStore) : Call → Prop
  | .adopt rec => ∀ full ∈ rec.checkpoint, MarksIn s full
  | .restore snap => MarksIn s snap
  | _ => True

instance (s : SettlementStore) : (c : Call) → Decidable (c.KeepsMarks s)
  | .adopt rec => inferInstanceAs (Decidable (∀ full ∈ rec.checkpoint, MarksIn s full))
  | .restore snap => inferInstanceAs (Decidable (MarksIn s snap))
  | .payIn _ | .settle _ _ _ | .claim _ _ | .setIssuance _ _ => isTrue trivial

theorem contains_restore {snap : EconomicSnapshot} (h : MarksIn s snap) {k : U64 × B32}
    (hk : s.claimed.contains k = true) (hrec : s.records.contains k.1 = true) :
    (s.restore snap).claimed.contains k = true := by
  have hmem : k ∈ snap.claimed :=
    h k (Std.ExtTreeSet.mem_toList.mpr (Std.ExtTreeSet.contains_iff_mem.mp hk)) hrec
  change (Std.ExtTreeSet.ofList snap.claimed compare).contains k = true
  rw [Std.ExtTreeSet.contains_ofList, List.contains_iff_mem]
  exact hmem

section Step

variable {blake3 : Bytes → B32} {s : SettlementStore}

theorem keepsClaims_settle (epoch : U64) (paid : List (B32 × U64)) (cheques : List BoardCheque) :
    KeepsClaims s (after (s.settleEpochFromCheques blake3 epoch paid cheques))
      ((Call.settle epoch paid cheques).adds blake3 s) := by
  cases hf : s.records[epoch]? with
  | some existing =>
    simp only [Call.adds, settleEpochFromCheques, hf, after]
    exact .of_eq rfl rfl
  | none =>
    have hnot : s.records.contains epoch = false := by
      rw [Std.ExtTreeMap.contains_eq_isSome_getElem?, hf]
      rfl
    cases hg : s.gather epoch paid cheques with
    | error s₁ =>
      obtain ⟨-, hr, hc, -⟩ := Money.mk.injEq .. ▸ money_gather.2 hg
      simp only [Call.adds, hf, settleEpochFromCheques_of_error hf hg, after]
      exact .of_eq hr hc
    | ok r =>
      obtain ⟨t, poolAdd⟩ := r
      obtain ⟨-, hr, hc, -⟩ := Money.mk.injEq .. ▸ money_gather.1 hg
      have hpay : KeepsClaims s (t.store.payIn poolAdd) [] := .of_eq hr hc
      have hb : KeepsClaims s (t.base epoch poolAdd) [] := hpay.trans (.expire _ epoch) (by simp)
      simp only [Call.adds, hf, settleEpochFromCheques_of_gather hf hg]
      cases compute blake3 (t.input epoch poolAdd) with
      | error _ => exact hb
      | ok record =>
        exact hb.trans (.insert rfl fun _ hk _ => hk) (by simpa using hnot)

/-- **No call but a claim loses a mark of a record it leaves in place**, if what replaces the marks
has them. -/
theorem keepsClaims_exec {c : Call} (hc : c.KeepsMarks s) (hq : ∀ e p, c ≠ .claim e p) :
    KeepsClaims s (c.exec blake3 s) (c.adds blake3 s) := by
  cases c with
  | payIn amount => exact .of_eq rfl rfl
  | setIssuance rate cap => exact .of_eq rfl rfl
  | settle epoch paid cheques => exact keepsClaims_settle epoch paid cheques
  | claim e p => exact absurd rfl (hq e p)
  | restore snap =>
    exact ⟨fun _ he => .inl he, fun _ hk hrec _ => contains_restore hc hk hrec⟩
  | adopt rec =>
    simp only [Call.exec, Call.adds, adoptCanonical]
    cases hch : rec.checkpoint with
    | none => exact .insert rfl fun _ hk _ => hk
    | some full => exact .insert rfl fun _ hk hrec => contains_restore (hc full hch) hk hrec

end Step

/-! ## What a claim does -/

theorem claim_idle {provider : B32} (h : (s.claim epoch provider).2 = 0) :
    (s.claim epoch provider).1 = s := by
  unfold claim at h ⊢
  cases hrec : s.records[epoch]? with
  | none => rfl
  | some rec =>
    simp only [hrec] at h ⊢
    split
    · rfl
    · rename_i hf
      rw [if_neg hf] at h
      exact absurd (.inl h) hf

theorem claim_released {provider : B32} (h : (s.claim epoch provider).2 ≠ 0) :
    s.records.contains epoch = true ∧ s.claimed.contains (epoch, provider) = false
      ∧ (s.claim epoch provider).1 = { s with
            pendingPayouts := s.pendingPayouts.satAdd (s.claim epoch provider).2
            claimed := s.claimed.insert (epoch, provider) } := by
  rw [Std.ExtTreeMap.contains_eq_isSome_getElem?]
  unfold claim at h ⊢
  cases hrec : s.records[epoch]? with
  | none => simp [hrec] at h
  | some rec =>
    simp only [hrec] at h ⊢
    split
    · rename_i hid
      rw [if_pos hid] at h
      exact absurd rfl h
    · rename_i hf
      exact ⟨rfl, (Bool.not_eq_true _).mp (not_or.mp hf).2, rfl⟩

/-! ## Runs -/

/-- A store, with the epochs recorded in it and the shares released from it so far. -/
structure ClaimLog where
  store : SettlementStore
  recorded : List U64
  released : List (U64 × B32)

namespace ClaimLog

def init : ClaimLog := ⟨.new, [], []⟩

def step (blake3 : Bytes → B32) (l : ClaimLog) (c : Call) : ClaimLog :=
  ⟨c.exec blake3 l.store, c.adds blake3 l.store ++ l.recorded, c.releases l.store ++ l.released⟩

/-- Every share released so far is marked, if its record is still there. -/
structure Marked (l : ClaimLog) : Prop where
  held : ∀ e, l.store.records.contains e = true → e ∈ l.recorded
  marks : ∀ k ∈ l.released,
    k.1 ∈ l.recorded ∧ (l.store.records.contains k.1 = true → l.store.claimed.contains k = true)
  nodup : l.released.Nodup

variable {blake3 : Bytes → B32} {l : ClaimLog}

theorem Marked.quiet (h : l.Marked) {c : Call} (hrel : c.releases l.store = [])
    (hk : KeepsClaims l.store (c.exec blake3 l.store) (c.adds blake3 l.store))
    (hnd : (l.step blake3 c).recorded.Nodup) : (l.step blake3 c).Marked := by
  refine ⟨fun e he => ?_, fun k hmem => ?_, ?_⟩
  · exact (hk.records e he).elim (fun he => List.mem_append_right _ (h.held e he))
      fun he => List.mem_append_left _ he
  · have hk' : k ∈ l.released := by simpa [step, hrel] using hmem
    obtain ⟨hold, hm⟩ := h.marks k hk'
    refine ⟨List.mem_append_right _ hold, fun hrec' => ?_⟩
    -- an epoch recorded before is not recorded again, so its record is the old one
    have hrec : l.store.records.contains k.1 = true :=
      (hk.records k.1 hrec').elim id fun hadd =>
        absurd hold ((List.nodup_append.mp hnd).2.2 k.1 hadd k.1 · rfl)
    exact hk.claimed k (hm hrec) hrec hrec'
  · simpa [step, hrel] using h.nodup

theorem Marked.claim (h : l.Marked) (epoch : U64) (provider : B32) :
    (l.step blake3 (.claim epoch provider)).Marked := by
  by_cases hz : (l.store.claim epoch provider).2 = 0
  · have hs : (l.step blake3 (.claim epoch provider)) = l := by
      simp [step, Call.exec, Call.adds, Call.releases, hz, claim_idle hz]
    rw [hs]
    exact h
  · obtain ⟨hrec, hf, hs⟩ := claim_released hz
    have hnew : (epoch, provider) ∉ l.released := fun hmem => by
      have := (h.marks _ hmem).2 hrec
      simp [hf] at this
    simp only [step, Call.exec, Call.adds, Call.releases, hz, if_false, hs,
      List.nil_append, List.singleton_append]
    refine ⟨h.held, fun k hmem => ?_, List.nodup_cons.mpr ⟨hnew, h.nodup⟩⟩
    simp only [Std.ExtTreeSet.contains_insert, Bool.or_eq_true]
    rcases List.mem_cons.mp hmem with rfl | hmem
    · exact ⟨h.held _ hrec, fun _ => .inl (by simp)⟩
    · exact ⟨(h.marks k hmem).1, fun hk => .inr ((h.marks k hmem).2 hk)⟩

theorem Marked.step (h : l.Marked) {c : Call} (hc : c.KeepsMarks l.store)
    (hnd : (l.step blake3 c).recorded.Nodup) : (l.step blake3 c).Marked := by
  cases c with
  | claim epoch provider => exact h.claim epoch provider
  | _ => exact h.quiet rfl (keepsClaims_exec hc fun _ _ => nofun) hnd

theorem marked_init : init.Marked :=
  ⟨fun e he => by simp [init, SettlementStore.new] at he, fun _ hk => by simp [init] at hk,
    List.nodup_nil⟩

end ClaimLog

/-- **A share is released at most once**, in every run that records an epoch once and in which a
checkpoint or a snapshot that replaces the claim marks has those of the records still held. -/
theorem released_at_most_once (blake3 : Bytes → B32) (calls : List Call)
    (hdistinct : (run (ClaimLog.step blake3) .init calls).recorded.Nodup)
    (hmarks : EachStep (ClaimLog.step blake3) .init (fun l c => c.KeepsMarks l.store) calls) :
    (run (ClaimLog.step blake3) .init calls).released.Nodup := by
  have hmarked := invariant (C := fun (l : ClaimLog) c => Call.KeepsMarks l.store c)
    (I := fun l : ClaimLog => l.recorded.Nodup → l.Marked) (fun _ => ClaimLog.marked_init)
    (fun l c ih hc hnd => (ih (List.nodup_append.mp hnd).2.1).step hc hnd) hmarks
  exact (hmarked hdistinct).nodup

/-- Account `9` is served by provider `7`, which earns the seed of epoch 31. -/
def epoch31 : Call := .settle 31 [] [⟨7, 9, 40, 0⟩]

/-- The record of epoch 32, a checkpoint, as a node settles it after `calls`. -/
def checkpoint32 (calls : List Call) : Option RewardRecord :=
  (run (Call.exec blake3) .new (calls ++ [.settle 32 [] []])).records[(32 : U64)]?

/-- Provider `7` claims, the node adopts epoch 32 from a node with another history, and `7` claims
again. -/
def claimAround (history : List Call) : List Call :=
  [epoch31, .claim 31 7] ++ (checkpoint32 history).toList.map .adopt ++ [.claim 31 7]

theorem released_at_most_once_claimAround :
    (checkpoint32 [epoch31, .claim 31 7]).isSome = true
      ∧ (run (ClaimLog.step blake3) .init (claimAround [epoch31, .claim 31 7])).released.Nodup := by
  refine ⟨by decide +kernel, released_at_most_once blake3 _ ?_ ?_⟩ <;> decide +kernel

theorem claimAround_releases_twice :
    (checkpoint32 [epoch31]).isSome = true
      ∧ (run (ClaimLog.step blake3) .init (claimAround [epoch31])).recorded.Nodup
      ∧ (run (ClaimLog.step blake3) .init (claimAround [epoch31])).released
        = [(31, 7), (31, 7)] := by
  decide +kernel

end Zephcraft.Settlement
