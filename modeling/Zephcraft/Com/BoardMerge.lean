import Zephcraft.Com.Board

/-!
# Com/BoardMerge — boards that gossip

Peers send their boards around, and each takes in what it gets: in some order, grouped in some way,
some of it twice. What a board then holds under a key is the first request, and the last verdict,
that arrived.
-/

namespace Zephcraft.Com

open Zephcraft.Core List Option Finset BoardSnapshot Board

/-! ## Orders of merging -/

/-- How a board comes about: it starts empty, takes in one of three snapshots, or another such
board. -/
inductive Plan where
  | new
  | receive (a : Plan) (i : Fin 3)
  | join (a b : Plan)

namespace Plan

/-- The snapshots that go in, in their order. -/
def leaves : Plan → List (Fin 3)
  | new => []
  | receive a i => a.leaves ++ [i]
  | join a b => a.leaves ++ b.leaves

def Covers (plan : Plan) : Prop := ∀ i, i ∈ plan.leaves

def eval (snaps : Fin 3 → BoardSnapshot) : Plan → Board
  | new => .new
  | receive a i => (a.eval snaps).merge (snaps i)
  | join a b => (a.eval snaps).merge (b.eval snaps).snapshot

def inOrder (l : List (Fin 3)) : Plan := l.foldl receive new

theorem leaves_inOrder (l : List (Fin 3)) : (inOrder l).leaves = l := by
  suffices h : ∀ plan : Plan, (l.foldl receive plan).leaves = plan.leaves ++ l by
    simpa [inOrder, leaves] using h new
  induction l with
  | nil => simp
  | cons i l ih =>
    intro plan
    rw [foldl_cons, ih, leaves, append_assoc, singleton_append]

variable {snaps : Fin 3 → BoardSnapshot}

theorem request_eval (plan : Plan) (hash : B32) :
    (plan.eval snaps).requests[hash]? = plan.leaves.findSome? fun i => (snaps i).request hash := by
  induction plan with
  | new => simp [eval, leaves, Board.new]
  | receive a i ih =>
    rw [eval, request_merge, ih, leaves, findSome?_append]
    cases h : (snaps i).request hash <;> simp [h]
  | join a b iha ihb => rw [eval, request_merge, request_snapshot, iha, ihb, leaves,
    findSome?_append]

theorem verdict_eval (plan : Plan) (hash node : B32) :
    (plan.eval snaps).verdicts[(hash, node)]?
      = plan.leaves.reverse.findSome? fun i => (snaps i).standing hash node := by
  induction plan with
  | new => simp [eval, leaves, Board.new]
  | receive a i ih =>
    rw [eval, verdict_merge, ih, leaves, reverse_append, findSome?_append]
    cases h : (snaps i).standing hash node <;> simp [h]
  | join a b iha ihb =>
    rw [eval, verdict_merge, standing_snapshot, iha, ihb, leaves, reverse_append, findSome?_append]

variable {plan : Plan} {hash : B32}

theorem request_eval_eq_some (hp : plan.Covers) {p : PostedRequest} {i : Fin 3}
    (h : (snaps i).request hash = some p) : ∃ j q, (snaps j).request hash = some q
      ∧ (plan.eval snaps).requests[hash]? = some q := by
  rw [request_eval]
  have hs : (plan.leaves.findSome? fun i => (snaps i).request hash).isSome = true :=
    findSome?_isSome_iff.mpr ⟨i, hp i, by simp [h]⟩
  obtain ⟨q, hq⟩ := isSome_iff_exists.mp hs
  obtain ⟨j, -, hj⟩ := exists_of_findSome?_eq_some hq
  exact ⟨j, q, hj, hq⟩

theorem verdict_eval_eq_some (hp : plan.Covers) {node : B32} {v : Verdict} {i : Fin 3}
    (h : (snaps i).standing hash node = some v) : ∃ j u, (snaps j).standing hash node = some u
      ∧ (plan.eval snaps).verdicts[(hash, node)]? = some u := by
  rw [verdict_eval]
  have hs : (plan.leaves.reverse.findSome? fun i => (snaps i).standing hash node).isSome = true :=
    findSome?_isSome_iff.mpr ⟨i, mem_reverse.mpr (hp i), by simp [h]⟩
  obtain ⟨u, hu⟩ := isSome_iff_exists.mp hs
  obtain ⟨j, -, hj⟩ := exists_of_findSome?_eq_some hu
  exact ⟨j, u, hj, hu⟩

theorem exists_of_request_eval {p : PostedRequest}
    (h : (plan.eval snaps).requests[hash]? = some p) :
    ∃ i, (snaps i).request hash = some p := by
  rw [request_eval] at h
  obtain ⟨i, -, hi⟩ := exists_of_findSome?_eq_some h
  exact ⟨i, hi⟩

theorem exists_of_verdict_eval {node : B32} {v : Verdict}
    (h : (plan.eval snaps).verdicts[(hash, node)]? = some v) :
    ∃ i, (snaps i).standing hash node = some v := by
  rw [verdict_eval] at h
  obtain ⟨i, -, hi⟩ := exists_of_findSome?_eq_some h
  exact ⟨i, hi⟩

theorem exists_first (i : Fin 3) :
    ∃ plan : Plan, plan.Covers ∧ ∀ (snaps : Fin 3 → BoardSnapshot) hash p,
    (snaps i).request hash = some p → (plan.eval snaps).requests[hash]? = some p := by
  refine ⟨inOrder (i :: finRange 3), fun j => ?_, fun snaps hash p h => ?_⟩
  · rw [leaves_inOrder]
    exact List.mem_cons_of_mem _ (mem_finRange j)
  · rw [request_eval, leaves_inOrder, findSome?_cons, h]

theorem exists_last (i : Fin 3) :
    ∃ plan : Plan, plan.Covers ∧ ∀ (snaps : Fin 3 → BoardSnapshot) hash node v,
    (snaps i).standing hash node = some v → (plan.eval snaps).verdicts[(hash, node)]? = some v := by
  refine ⟨inOrder (finRange 3 ++ [i]), fun j => ?_, fun snaps hash node v h => ?_⟩
  · rw [leaves_inOrder]
    exact mem_append_left _ (mem_finRange j)
  · rw [verdict_eval, leaves_inOrder, reverse_append, reverse_singleton, singleton_append,
      findSome?_cons, h]

end Plan

/-! ## Readers that agree -/

section Agree

variable (S : SigScheme)

/-- Two boards are alike to every reader: the same requests are satisfied, with the same
certificates and counts, and every node may grab the same. -/
structure Board.Alike (b b' : Board) : Prop where
  satisfied : ∀ p, b.satisfied S p = b'.satisfied S p
  collected : ∀ p, (b.collected S p).map (fun vs => {v | v ∈ vs}) = (b'.collected S p).map fun vs =>
    {v | v ∈ vs}
  agreements : ∀ p, b.validAgreements S p = b'.validAgreements S p
  grabbable : ∀ node p, p ∈ b.grabbableBy S node ↔ p ∈ b'.grabbableBy S node

/-- A verdict that some request could count: it agrees, is signed, and is on a run and an output
that exist. -/
def Verdict.Binding (v : Verdict) : Prop :=
  v.agree = true ∧ v.verifySig S = true
    ∧ ∃ req : VerifyRequest, req.requestHash = v.requestHash ∧ req.outputHash = v.outputHash

variable (snaps : Fin 3 → BoardSnapshot)

/-- The verifiers with a verdict that counts for a request in some snapshot. -/
def supporters (p : PostedRequest) : Finset B32 :=
  Finset.univ.biUnion fun i => (((snaps i).verdicts.filter fun v =>
    (snaps i).standing v.requestHash v.verifier = some v
      ∧ counts S p v = true).map Verdict.verifier).toFinset

/-- A request that some node would be offered: it may verify it and has posted no verdict on it, and
the request lacks supporters. -/
def Offered (p : PostedRequest) : Prop :=
  ∃ node, p.producer ≠ node ∧ p.policy.verifiers.allows node = true
    ∧ (∀ i, (snaps i).standing p.req.requestHash node = none) ∧ (supporters S snaps p).card
      < p.policy.k

/-- **No two snapshots differ in what a reader can see**: in a verdict that binds, or in a request
that is offered. -/
structure Compatible : Prop where
  verdicts : ∀ i j hash node v v', (snaps i).standing hash node = some v
    → (snaps j).standing hash node = some v' → v.Binding S → v = v'
  requests : ∀ i j hash p p', (snaps i).request hash = some p → (snaps j).request hash = some p' →
    Offered S snaps p → p = p'

variable {S snaps}

variable {p : PostedRequest} {v : Verdict} {node : B32} {plan : Plan}

theorem Board.binding_of_counts (h : counts S p v = true) : v.Binding S := by
  obtain ⟨ha, hr, ho, -, -, hsig⟩ := counts_iff.mp h
  exact ⟨ha, hsig, p.req, hr.symm, ho.symm⟩

theorem mem_supporters : node ∈ supporters S snaps p
    ↔ ∃ i v, (snaps i).standing p.req.requestHash node = some v ∧ counts S p v = true := by
  simp only [supporters, mem_biUnion, mem_univ, true_and, List.mem_toFinset, List.mem_map,
    List.mem_filter, decide_eq_true_eq]
  constructor
  · rintro ⟨i, v, ⟨-, hs, hc⟩, rfl⟩
    rw [(counts_iff.mp hc).2.1] at hs
    exact ⟨i, v, hs, hc⟩
  · rintro ⟨i, v, hs, hc⟩
    obtain ⟨hh, rfl⟩ := key_of_standing hs
    refine ⟨i, v, ⟨?_, hh ▸ hs, hc⟩, rfl⟩
    exact mem_reverse.mp (mem_of_find?_eq_some hs)

theorem counted_iff (hp : plan.Covers)
    (hv : ∀ i j hash node v v', (snaps i).standing hash node = some v
      → (snaps j).standing hash node = some v' → v.Binding S → v = v') {hash : B32} (hc :
        counts S p v = true) :
    (plan.eval snaps).verdicts[(hash, node)]? = some v
      ↔ ∃ i, (snaps i).standing hash node = some v := by
  refine ⟨Plan.exists_of_verdict_eval, fun ⟨i, hi⟩ => ?_⟩
  obtain ⟨j, u, hj, hu⟩ := Plan.verdict_eval_eq_some hp hi
  rw [hv i j hash node v u hi hj (binding_of_counts hc)]
  exact hu

theorem agreeing_eval (hp : plan.Covers)
    (hv : ∀ i j hash node v v', (snaps i).standing hash node = some v
      → (snaps j).standing hash node = some v' → v.Binding S → v = v') (p : PostedRequest) :
        (plan.eval snaps).agreeing S p = supporters S snaps p := by
  ext node
  rw [mem_agreeing, mem_supporters, exists_comm]
  refine exists_congr fun v => ?_
  constructor
  · rintro ⟨hget, hc⟩
    obtain ⟨i, hi⟩ := (counted_iff hp hv hc).mp hget
    exact ⟨i, hi, hc⟩
  · rintro ⟨i, hi, hc⟩
    exact ⟨(counted_iff hp hv hc).mpr ⟨i, hi⟩, hc⟩

theorem verdict_eval_eq_none (hp : plan.Covers) {hash : B32} :
    (plan.eval snaps).verdicts[(hash, node)]? = none
      ↔ ∀ i, (snaps i).standing hash node = none := by
  constructor
  · intro hn i
    by_contra hne
    obtain ⟨v, hv⟩ := ne_none_iff_exists'.mp hne
    obtain ⟨j, u, -, hu⟩ := Plan.verdict_eval_eq_some hp hv
    simp [hn] at hu
  · intro h
    by_contra hne
    obtain ⟨v, hv⟩ := ne_none_iff_exists'.mp hne
    obtain ⟨i, hi⟩ := Plan.exists_of_verdict_eval hv
    simp [h i] at hi

theorem Compatible.alike (h : Compatible S snaps) {plan' : Plan} (hpl : plan.Covers)
    (hp' : plan'.Covers) :
    (plan.eval snaps).Alike S (plan'.eval snaps) := by
  have hv :
      ∀ p, ((plan.eval snaps).validVerdicts S p).Perm ((plan'.eval snaps).validVerdicts S p) := by
    intro p
    refine (perm_ext_iff_of_nodup (nodup_verifiers _ S p).of_map (nodup_verifiers _ S p).of_map).mpr
      ?_
    intro v
    rw [mem_validVerdicts, mem_validVerdicts]
    refine and_congr_left fun hc => ?_
    rw [counted_iff hpl h.verdicts hc, counted_iff hp' h.verdicts hc]
  have hg : ∀ {plan plan' : Plan}, plan.Covers → plan'.Covers → ∀ node p,
      p ∈ (plan.eval snaps).grabbableBy S node → p ∈ (plan'.eval snaps).grabbableBy S node := by
    intro plan plan' hpl hp' node p hp
    rw [mem_grabbableBy, agreeing_eval hpl h.verdicts, verdict_eval_eq_none hpl] at hp
    rw [mem_grabbableBy, agreeing_eval hp' h.verdicts, verdict_eval_eq_none hp']
    obtain ⟨hget, hpr, ha, hn, hfew⟩ := hp
    obtain ⟨i, hi⟩ := Plan.exists_of_request_eval hget
    obtain ⟨j, q, hj, hq⟩ := Plan.request_eval_eq_some hp' hi
    obtain rfl := h.requests i j _ p q hi hj ⟨node, hpr, ha, hn, hfew⟩
    exact ⟨hq, hpr, ha, hn, hfew⟩
  refine ⟨fun p => ?_, fun p => ?_, fun p => (hv p).length_eq, fun node p => ?_⟩
  · rw [satisfied, satisfied, validAgreements, validAgreements, (hv p).length_eq]
  · rw [collected, collected, (hv p).length_eq]
    split
    · exact congrArg some (Set.ext fun v => (hv p).mem_iff)
    · rfl
  · exact ⟨hg hpl hp' node p, hg hp' hpl node p⟩

theorem Verdict.Binding.exists_counts (h : v.Binding S) :
    ∃ p : PostedRequest, p.policy.k = 0 ∧ counts S p v = true := by
  obtain ⟨ha, hsig, req, hr, ho⟩ := h
  have hot : ∃ producer, v.verifier ≠ producer := by
    by_cases hz : v.verifier = 0
    · exact ⟨1, by rw [hz]; decide⟩
    · exact ⟨0, hz⟩
  obtain ⟨producer, hp⟩ := hot
  refine ⟨⟨producer, req, ⟨0, .anyone⟩⟩, rfl, ?_⟩
  exact counts_iff.mpr ⟨ha, hr.symm, ho.symm, hp, rfl, hsig⟩

/-- **Readers agree in every order of merging exactly when the snapshots are compatible.** -/
theorem merges_agree_iff (S : SigScheme) (snaps : Fin 3 → BoardSnapshot) :
    (∀ plan plan' : Plan, plan.Covers → plan'.Covers → (plan.eval snaps).Alike S (plan'.eval snaps))
      ↔ Compatible S snaps := by
  refine ⟨fun h => ?_, fun h _ _ hplan hplan' => h.alike hplan hplan'⟩
  have hverdicts : ∀ i j hash node v v', (snaps i).standing hash node = some v →
      (snaps j).standing hash node = some v' → v.Binding S → v = v' := by
    intro i j hash node v v' hi hj hbinding
    obtain ⟨p, hk, hcounts⟩ := hbinding.exists_counts
    obtain ⟨rfl, rfl⟩ := key_of_standing hi
    obtain ⟨plan, hplan, hlast⟩ := Plan.exists_last i
    obtain ⟨plan', hplan', hlast'⟩ := Plan.exists_last j
    -- the certificates are the same, so `v` is on both boards
    have hcollected := (h plan plan' hplan hplan').collected p
    rw [collected, collected, if_pos (by simp [hk]), if_pos (by simp [hk])] at hcollected
    have hv : v ∈ (plan.eval snaps).validVerdicts S p :=
      mem_validVerdicts.mpr ⟨hlast snaps _ _ v hi, hcounts⟩
    have hv' : v ∈ (plan'.eval snaps).validVerdicts S p :=
      (Set.ext_iff.mp (Option.some.inj hcollected) v).mp hv
    exact Option.some.inj ((mem_validVerdicts.mp hv').1.symm.trans (hlast' snaps _ _ v' hj))
  refine ⟨hverdicts, fun i j hash p p' hi hj hoffered => ?_⟩
  obtain ⟨node, hproducer, hallows, hnone, hfew⟩ := hoffered
  obtain rfl := key_of_request hi
  obtain ⟨plan, hplan, hfirst⟩ := Plan.exists_first i
  obtain ⟨plan', hplan', hfirst'⟩ := Plan.exists_first j
  have hp : p ∈ (plan.eval snaps).grabbableBy S node := by
    rw [mem_grabbableBy, agreeing_eval hplan hverdicts, verdict_eval_eq_none hplan]
    exact ⟨hfirst snaps _ p hi, hproducer, hallows, hnone, hfew⟩
  have hp' := ((h plan plan' hplan hplan').grabbable node p).mp hp
  exact Option.some.inj ((mem_grabbableBy.mp hp').1.symm.trans (hfirst' snaps _ p' hj))

end Agree

/-- A request that asks for one verifier. -/
def postedRun : PostedRequest := ⟨9, ⟨1, [], [], [], 0, [7]⟩, ⟨1, .anyone⟩⟩

/-- A verdict that a node has signed, and one in the name of node 1 that nobody has. -/
def signedBy (node : B32) : Verdict :=
  .sign .transparent node postedRun.req.requestHash postedRun.req.outputHash true

def forgedVerdict : Verdict := ⟨1, postedRun.req.requestHash, postedRun.req.outputHash, false, []⟩

/-- The signed verdict, the forged one, and an empty board. -/
def withForgery : Fin 3 → BoardSnapshot :=
  ![⟨[postedRun], [signedBy 1]⟩, ⟨[], [forgedVerdict]⟩, ⟨[], []⟩]

/-- **Whether there is a certificate depends on which verdict arrived last.** -/
theorem forged_verdict_splits_readers :
    (Plan.inOrder [0, 1, 2]).Covers ∧ (Plan.inOrder [1, 0, 2]).Covers
      ∧ ((Plan.inOrder [0, 1, 2]).eval withForgery).collected .transparent postedRun = none
      ∧ ((Plan.inOrder [1, 0, 2]).eval withForgery).collected .transparent postedRun
        = some [signedBy 1] ∧ ¬ ((Plan.inOrder [0, 1, 2]).eval withForgery).Alike .transparent
          ((Plan.inOrder [1, 0, 2]).eval withForgery) := by
  have hnone : ((Plan.inOrder [0, 1, 2]).eval withForgery).collected .transparent postedRun
      = none := by
    decide +kernel
  have hsome : ((Plan.inOrder [1, 0, 2]).eval withForgery).collected .transparent postedRun
      = some [signedBy 1] := by
    decide +kernel
  refine ⟨?_, ?_, hnone, hsome, fun h => ?_⟩
  · rw [Plan.Covers, Plan.leaves_inOrder]
    decide
  · rw [Plan.Covers, Plan.leaves_inOrder]
    decide
  · have hcollected := h.collected postedRun
    rw [hnone, hsome] at hcollected
    cases hcollected

/-! ## A snapshot against a certificate -/

namespace Board

variable (S : SigScheme) (b : Board) (snap : BoardSnapshot) (posted : PostedRequest)

/-- Verifiers who count on the board, and whose last verdict in the snapshot does not. -/
def lost : Finset B32 :=
  (b.agreeing S posted).filter fun node =>
    (snap.standing posted.req.requestHash node).any (fun v => !counts S posted v) = true

/-- Verifiers who do not count on the board, and whose last verdict in the snapshot does. -/
def gained : Finset B32 :=
  ((snap.verdicts.map Verdict.verifier).toFinset \ b.agreeing S posted).filter fun node =>
    (snap.standing posted.req.requestHash node).any (counts S posted) = true

variable {S b snap posted}

theorem mem_gained {node : B32} : node ∈ b.gained S snap posted ↔ node ∉ b.agreeing S posted
    ∧ ∃ v, snap.standing posted.req.requestHash node = some v ∧ counts S posted v = true := by
  rw [gained, Finset.mem_filter, mem_sdiff, List.mem_toFinset, Option.any_eq_true, and_assoc]
  constructor
  · rintro ⟨-, hnot, v, hv, hc⟩
    exact ⟨hnot, v, hv, hc⟩
  · rintro ⟨hnot, v, hv, hc⟩
    obtain ⟨-, rfl⟩ := key_of_standing hv
    refine ⟨List.mem_map_of_mem ?_, hnot, v, hv, hc⟩
    exact mem_reverse.mp (mem_of_find?_eq_some hv)

/-- **Who counts after a merge**: who did and was not overwritten, and who is new. -/
theorem agreeing_merge : (b.merge snap).agreeing S posted
    = (b.agreeing S posted \ b.lost S snap posted) ∪ b.gained S snap posted := by
  ext node
  rw [mem_agreeing, verdict_merge, mem_union, mem_sdiff, mem_gained, lost, Finset.mem_filter]
  cases hs : snap.standing posted.req.requestHash node with
  | none => simp [mem_agreeing]
  | some v =>
    cases hc : counts S posted v with
    | true => by_cases hin : node ∈ b.agreeing S posted <;> simp [hc, hin]
    | false => simp [hc]

variable (S b snap posted) in
theorem card_agreeing_merge : ((b.merge snap).agreeing S posted).card + (b.lost S snap posted).card
    = (b.agreeing S posted).card + (b.gained S snap posted).card := by
  have hsub : b.lost S snap posted ⊆ b.agreeing S posted := Finset.filter_subset _ _
  have hd : Disjoint (b.agreeing S posted \ b.lost S snap posted) (b.gained S snap posted) := by
    refine Finset.disjoint_left.mpr fun node hn hg => ?_
    exact (mem_gained.mp hg).1 (mem_sdiff.mp hn).1
  have hc := card_sdiff_add_card_eq_card hsub
  rw [agreeing_merge, card_union_of_disjoint hd]
  omega

/-- **A certificate survives a snapshot exactly when** the snapshot takes away no more than it
brings. -/
theorem certificate_survives_iff (S : SigScheme) (b : Board) (snap : BoardSnapshot)
    (posted : PostedRequest) (h : (b.collected S posted).isSome = true) :
    (((b.merge snap).collected S posted).isSome = true
        ∧ b.validAgreements S posted ≤ (b.merge snap).validAgreements S posted)
      ↔ (b.lost S snap posted).card ≤ (b.gained S snap posted).card := by
  rw [isSome_collected] at h ⊢
  rw [← card_agreeing, ← card_agreeing]
  have hcard := card_agreeing_merge S b snap posted
  omega

/-- A board with the certificate of a request. -/
def certified : Board := Board.new.merge ⟨[postedRun], [signedBy 1]⟩

/-- A second verifier agrees. -/
theorem certificate_survives_iff_second :
    (certified.collected .transparent postedRun).isSome = true
      ∧ ((certified.merge ⟨[], [signedBy 2]⟩).collected .transparent postedRun).isSome = true
      ∧ certified.validAgreements .transparent postedRun
        ≤ (certified.merge ⟨[], [signedBy 2]⟩).validAgreements .transparent postedRun := by
  have hcertified : (certified.collected .transparent postedRun).isSome = true := by decide +kernel
  exact ⟨hcertified,
    (certificate_survives_iff .transparent certified ⟨[], [signedBy 2]⟩ postedRun hcertified).mpr
    (by decide +kernel)⟩

/-- **One unsigned verdict takes the certificate away.** -/
theorem unsigned_verdict_destroys_certificate :
    forgedVerdict.verifySig .transparent = false
      ∧ certified.collected .transparent postedRun = some [signedBy 1]
      ∧ (certified.merge ⟨[], [forgedVerdict]⟩).collected .transparent postedRun = none
      ∧ (certified.merge ⟨[], [forgedVerdict]⟩).validAgreements .transparent postedRun
        < certified.validAgreements .transparent postedRun := by
  refine ⟨by decide +kernel, by decide +kernel, by decide +kernel, by decide +kernel⟩

end Board

end Zephcraft.Com
