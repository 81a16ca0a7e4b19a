import Zephcraft.Com.Reconfigure
import Zephcraft.Foundations.BinarySearch
import Zephcraft.Foundations.Run

/-!
# Com/QuorumVec — the quorum as the record it is

A quorum keeps its members in a vector and looks them up by binary search, which is only right while
the vector is sorted. `genesis` sorts it; adding a member sorts again, removing one leaves the
order.
-/

namespace Zephcraft.Com

open Zephcraft.Core List QuorumChain Replay Run

/-- A quorum as the source's vector. -/
structure QuorumVec where
  members : List B32
  threshold : ℕ
  seq : U64
deriving DecidableEq

namespace QuorumVec

/-- Of entries that repeat the one before them, the first is kept. -/
def dedup : List B32 → List B32
  | [] => []
  | [a] => [a]
  | a :: b :: l => if a = b then dedup (b :: l) else a :: dedup (b :: l)

def genesis (members : List B32) (threshold : ℕ) : QuorumVec :=
  let m := dedup (members.insertionSort (· ≤ ·))
  ⟨m, max 1 (min threshold (max m.length 1)), 0⟩

variable (B : BinarySearch) (S : SigScheme) (q : QuorumVec)

def isMember (id : B32) : Bool :=
  match B.search (fun m => compare m id) q.members with
  | .ok _ => true
  | .error _ => false

/-- How many distinct members signed the message. -/
def countSigners (msg : Bytes) (sigs : List MemberSignature) : ℕ :=
  ((sigs.filter fun s => q.isMember B s.member && S.verifyBytes s.member msg s.signature).map
    MemberSignature.member).toFinset.card

/-- The quorum one number on, with a membership change. -/
def advance (change : Option MemberChange) : Except Panic QuorumVec := do
  let seq ← q.seq.addOrPanic 1
  match change with
  | some (.add member) =>
    if q.isMember B member then pure { q with seq := seq }
    else pure { q with members := (q.members ++ [member]).insertionSort (· ≤ ·), seq := seq }
  | some (.remove member) =>
    let members := q.members.filter (· ≠ member)
    pure ⟨members, min q.threshold (max members.length 1), seq⟩
  | some (.setThreshold threshold) =>
    pure { q with threshold := max 1 (min threshold.val (max q.members.length 1)), seq := seq }
  | none => pure { q with seq := seq }

/-- Does what is proposed have the next number, and enough signatures? -/
def approves (seq : U64) (msg : Bytes) (sigs : List MemberSignature) : Except Panic Bool := do
  let next ← q.seq.addOrPanic 1
  pure (seq = next && q.threshold ≤ q.countSigners B S msg sigs)

/-- The advanced quorum, or nothing if it does not pass. -/
def enact (seq : U64) (msg : Bytes) (sigs : List MemberSignature) (change : Option MemberChange) :
    Except Panic (Option QuorumVec) := do
  if ← q.approves B S seq msg sigs then
    let next ← q.advance B change
    pure (some next)
  else pure none

variable {B S q} {q' : QuorumVec} {seq : U64} {msg : Bytes} {sigs : List MemberSignature}
  {change : Option MemberChange}

theorem seq_advance (h : q.advance B change = .ok q') : q.seq.addOrPanic 1 = .ok q'.seq := by
  obtain ⟨next, hn, h⟩ := Except.bind_eq_ok.mp h
  rw [hn]
  rcases change with _ | member | member | threshold
  · cases h
    rfl
  · dsimp only at h
    split at h <;> obtain rfl := Except.ok.inj h <;> rfl
  · cases h
    rfl
  · cases h
    rfl

theorem seq_enact (h : q.enact B S seq msg sigs change = .ok (some q')) :
    q.seq.addOrPanic 1 = .ok q'.seq := by
  obtain ⟨passes, -, h⟩ := Except.bind_eq_ok.mp h
  cases passes with
  | false => cases h
  | true =>
    obtain ⟨next, hn, h⟩ := Except.bind_eq_ok.mp h
    cases h
    exact seq_advance hn

end QuorumVec

namespace Attestation

/-- The advanced quorum, or nothing if the attestation is not authorized. -/
def applyToVec (B : BinarySearch) (S : SigScheme) (att : Attestation) (q : QuorumVec) :
    Except Panic (Option QuorumVec) :=
  q.enact B S att.proposal.seq att.proposal.signingBytes att.signatures
    att.proposal.action.memberChange

end Attestation

/-- A genesis quorum and the attestations that extend it, decoded from anywhere. -/
structure QuorumChainVec where
  genesis : QuorumVec
  attestations : List Attestation

namespace QuorumChainVec

variable (B : BinarySearch) (S : SigScheme) (chain : QuorumChainVec)

def new (genesis : QuorumVec) : QuorumChainVec := ⟨genesis, []⟩

/-- The quorum the chain has come to, if every attestation extends what is before it. -/
def current : Except Panic (Option QuorumVec) :=
  replay (Attestation.applyToVec B S) chain.genesis chain.attestations

/-- Append an attestation if it extends the chain. -/
def append (att : Attestation) : Except Panic (Bool × QuorumChainVec) := do
  match ← chain.current B S with
  | none => pure (false, chain)
  | some q =>
    match ← att.applyToVec B S q with
    | none => pure (false, chain)
    | some _ => pure (true, { chain with attestations := chain.attestations ++ [att] })

/-- The statements that were authorized from `q` on, up to a break in the chain. -/
def statementsFrom (q : QuorumVec) : List Attestation → Except Panic (List Bytes)
  | [] => pure []
  | att :: rest => do
    match ← att.applyToVec B S q with
    | none => pure []
    | some next =>
      let more ← statementsFrom next rest
      match att.proposal.action with
      | .statement bytes => pure (bytes :: more)
      | _ => pure more

/-- Every statement the quorum has authorized. -/
def authorizedStatements : Except Panic (List Bytes) :=
  statementsFrom B S chain.genesis chain.attestations

/-- Has the quorum authorized the statement? -/
def isAuthorized (statement : Bytes) : Except Panic Bool := do
  let statements ← chain.authorizedStatements B S
  pure (statements.any (· = statement))

def upTo (n : ℕ) : QuorumChainVec := { chain with attestations := chain.attestations.take n }

/-- The chain after an attempt to append; one that panics has not reached the vector. -/
def attempt (att : Attestation) : QuorumChainVec :=
  match chain.append B S att with
  | .ok (_, chain) => chain
  | .error _ => chain

end QuorumChainVec

/-! ## Records of sorted members -/

namespace Quorum

variable {B : BinarySearch} {S : SigScheme}

def vec (q : Quorum) : QuorumVec := ⟨q.members, q.threshold, q.seq⟩

variable {l : List B32} (q : Quorum)

theorem mem_dedup {m : B32} : m ∈ QuorumVec.dedup l ↔ m ∈ l := by
  fun_induction QuorumVec.dedup l with
  | case1 => rfl
  | case2 => rfl
  | case3 a l ih => simp [ih]
  | case4 a b l hne ih => simp [ih]

theorem pairwise_dedup (h : l.Pairwise (· ≤ ·)) : (QuorumVec.dedup l).Pairwise (· < ·) := by
  fun_induction QuorumVec.dedup l with
  | case1 => exact List.Pairwise.nil
  | case2 a => exact pairwise_singleton _ a
  | case3 a l ih => exact ih h.of_cons
  | case4 a b l hne ih =>
    obtain ⟨hle, hr⟩ := pairwise_cons.mp h
    refine pairwise_cons.mpr ⟨fun m hm => ?_, ih hr⟩
    have hab : a < b := lt_of_le_of_ne (hle b (by simp)) hne
    rcases mem_cons.mp (mem_dedup.mp hm) with rfl | hm
    · exact hab
    · exact hab.trans_le ((pairwise_cons.mp hr).1 m hm)

theorem eq_of_mem_iff {l' : List B32} (h : l.Pairwise (· < ·)) (h' : l'.Pairwise (· < ·))
    (hmem : ∀ m, m ∈ l ↔ m ∈ l') :
    l = l' := by
  have hp := (perm_ext_iff_of_nodup (h.imp ne_of_lt) (h'.imp ne_of_lt)).mpr hmem
  exact hp.eq_of_pairwise' (h.imp le_of_lt) (h'.imp le_of_lt)

theorem vec_genesis (members : List B32) (threshold : ℕ) :
    (genesis members threshold).vec = QuorumVec.genesis members threshold := by
  have hm : canonical members = QuorumVec.dedup (members.insertionSort (· ≤ ·)) :=
    eq_of_mem_iff (pairwise_canonical members) (pairwise_dedup (pairwise_insertionSort _ _))
      fun m => by
      rw [mem_canonical, mem_dedup, mem_insertionSort]
  rw [QuorumVec.genesis, ← hm]
  rfl

theorem isMember_vec (id : B32) : q.vec.isMember B id = q.isMember id := by
  have hasc : Ascending (fun m => compare m id) q.members := by
    refine q.sorted.imp fun {a b} hab => ⟨fun hb => ?_, fun ha => ?_⟩
    · exact compare_lt_iff_lt.mpr (hab.trans (compare_lt_iff_lt.mp hb))
    · exact compare_gt_iff_gt.mpr (hab.trans' (compare_gt_iff_gt.mp ha))
  have hl := B.located hasc
  rw [QuorumVec.isMember, isMember, vec]
  generalize B.search (fun m => compare m id) q.members = r at hl
  generalize q.members = l at hl
  cases hl with
  | found pre m post heq =>
    obtain rfl := compare_eq_iff_eq.mp heq
    simp
  | absent pre post hpre hp =>
    have hnot : id ∉ pre ++ post := by
      intro hid
      rcases mem_append.mp hid with hid | hid
      · exact absurd (hpre id hid) (by simp)
      · exact absurd (hp id hid) (by simp)
    simp [hnot]

theorem countSigners_vec (msg : Bytes) (sigs : List MemberSignature) :
    q.vec.countSigners B S msg sigs = q.countSigners S msg sigs := by
  simp only [QuorumVec.countSigners, countSigners, signers, isMember_vec]

theorem advance_vec (change : Option MemberChange) :
    q.vec.advance B change = (q.seq.addOrPanic 1).map fun next => (q.advance next change).vec := by
  rw [QuorumVec.advance, vec]
  cases q.seq.addOrPanic 1 with
  | error e => rfl
  | ok next =>
    rcases change with _ | member | member | threshold
    · rfl
    · have hs :
          (⟨q.members, q.threshold, q.seq⟩ : QuorumVec).isMember B member = q.isMember member :=
        q.isMember_vec member
      have ha :
          (q.advance next (some (.add member))).vec = ⟨canonical (q.members ++ [member]),
            q.threshold, next⟩ := rfl
      have hso := pairwise_canonical (q.members ++ [member])
      simp only [Except.map, ha]
      by_cases hmem : member ∈ q.members
      · have hold : q.members = canonical (q.members ++ [member]) :=
          eq_of_mem_iff q.sorted hso fun m => by
            rw [mem_canonical, mem_append, mem_singleton]
            exact ⟨.inl, fun h => h.elim id fun h => h ▸ hmem⟩
        rw [← hold]
        simp [bind, Except.bind, pure, Except.pure, hs, isMember, hmem]
      · have hn : ((q.members ++ [member]).insertionSort (· ≤ ·)).Nodup :=
          (perm_insertionSort _ _).nodup_iff.mpr (nodup_append.mpr ⟨q.nodup_members, by simp,
            by grind⟩)
        have hnew :
            (q.members ++ [member]).insertionSort (· ≤ ·) = canonical (q.members ++ [member]) := by
          rw [canonical, hn.dedup]
        rw [← hnew]
        simp [bind, Except.bind, pure, Except.pure, hs, isMember, hmem]
    · rfl
    · rfl

theorem enact_vec (seq : U64) (msg : Bytes) (sigs : List MemberSignature)
    (change : Option MemberChange) :
    q.vec.enact B S seq msg sigs change = (q.enact S seq msg sigs change).map (Option.map vec) := by
  have ha : q.vec.approves B S seq msg sigs = q.approves S seq msg sigs := by
    rw [QuorumVec.approves, approves, countSigners_vec]
    rfl
  rw [QuorumVec.enact, enact, ha, advance_vec]
  cases q.approves S seq msg sigs with
  | error e => rfl
  | ok passes =>
    cases passes with
    | false => rfl
    | true => cases q.seq.addOrPanic 1 <;> rfl

end Quorum

/-! ## Chains of records -/

namespace QuorumChain

variable {B : BinarySearch} {S : SigScheme}

def vec (chain : QuorumChain) : QuorumChainVec := ⟨chain.genesis.vec, chain.attestations⟩

variable (chain : QuorumChain) (att : Attestation)

theorem current_vec : chain.vec.current B S = (chain.current S).map (Option.map Quorum.vec) := by
  have hs :
      ∀ (att : Attestation) (q : Quorum), att.applyToVec B S q.vec
        = (att.applyTo S q).map (Option.map Quorum.vec) :=
    fun att q => q.enact_vec _ _ _ _
  rw [current, fold_eq_replay]
  exact replay_map hs

theorem append_vec : chain.vec.append B S att = (chain.append S att).map (Prod.map id vec) := by
  rw [QuorumChainVec.append, append, current_vec]
  rcases chain.current S with _ | _ | q
  · rfl
  · rfl
  · have ha : att.applyToVec B S q.vec = (att.applyTo S q).map (Option.map Quorum.vec) :=
      q.enact_vec _ _ _ _
    simp only [Except.map, Option.map_some, bind, Except.bind, ha]
    rcases att.applyTo S q with _ | _ | q' <;> rfl

/-- The chain after an attempt to append. -/
def attempt (S : SigScheme) (chain : QuorumChain) (att : Attestation) : QuorumChain :=
  match chain.append S att with
  | .ok (_, chain) => chain
  | .error _ => chain

theorem attempt_vec : chain.vec.attempt B S att = (chain.attempt S att).vec := by
  rw [QuorumChainVec.attempt, attempt, append_vec]
  rcases chain.append S att with _ | ⟨_, _⟩ <;> rfl

/-- **What an attempt does**: nothing, or the chain grows by an attestation that extends it. -/
theorem attempt_cases : chain.attempt S att = chain
    ∨ ∃ q q', chain.current S = .ok (some q) ∧ att.applyTo S q = .ok (some q')
      ∧ chain.attempt S att = { chain with attestations := chain.attestations ++ [att] } := by
  rw [attempt, append]
  rcases hc : chain.current S with _ | _ | q
  · exact .inl rfl
  · exact .inl rfl
  · rcases ha : att.applyTo S q with _ | _ | q'
    · exact .inl (by simp [bind, Except.bind, ha])
    · exact .inl (by simp [bind, Except.bind, pure, Except.pure, ha])
    · exact .inr ⟨q, q', rfl, ha, by simp [bind, Except.bind, pure, Except.pure, ha]⟩

/-- The chain after any number of attempts. -/
def attempted (S : SigScheme) (genesis : Quorum) (attempts : List Attestation) : QuorumChain :=
  run (attempt S) ⟨genesis, []⟩ attempts

theorem exists_current_attempted (S : SigScheme) (genesis : Quorum) (attempts : List Attestation) :
    (attempted S genesis attempts).genesis = genesis
      ∧ ∃ q, fold S genesis (attempted S genesis attempts).attestations = .ok (some q) := by
  refine always (I := fun chain : QuorumChain =>
    chain.genesis = genesis ∧ ∃ q, fold S genesis chain.attestations = .ok (some q)) ⟨rfl, genesis,
      rfl⟩ ?_
  rintro chain att ⟨rfl, q, hq⟩
  rcases attempt_cases chain att with heq | ⟨p, p', hc, ha, heq⟩ <;> rw [heq]
  · exact ⟨rfl, q, hq⟩
  · exact ⟨rfl, p', fold_concat.mpr ⟨p, hc, ha⟩⟩

end QuorumChain

namespace QuorumChainVec

variable {B : BinarySearch} {S : SigScheme}

/-- The chain of a genesis quorum after any number of attempts to append. -/
def attempted (B : BinarySearch) (S : SigScheme) (members : List B32) (threshold : ℕ)
    (attempts : List Attestation) : QuorumChainVec :=
  run (attempt B S) (new (.genesis members threshold)) attempts

theorem attempted_eq_vec (members : List B32) (threshold : ℕ) (attempts : List Attestation) :
    attempted B S members threshold attempts
      = (QuorumChain.attempted S (.genesis members threshold) attempts).vec := by
  induction attempts using reverseRecOn with
  | nil =>
    rw [attempted, run_nil, new, ← Quorum.vec_genesis]
    rfl
  | append_singleton attempts att ih =>
    rw [attempted, run_concat, ← attempted, ih, attempt_vec, QuorumChain.attempted,
      QuorumChain.attempted, run_concat]

theorem append_eq_false {chain chain' : QuorumChainVec} {att : Attestation}
    (h : chain.append B S att = .ok (false, chain')) :
    chain' = chain := by
  obtain ⟨folded, -, h⟩ := Except.bind_eq_ok.mp h
  cases folded with
  | none => exact (Prod.mk.inj (Except.ok.inj h)).2.symm
  | some q =>
    obtain ⟨applied, -, h⟩ := Except.bind_eq_ok.mp h
    cases applied with
    | none => exact (Prod.mk.inj (Except.ok.inj h)).2.symm
    | some q' => cases (Prod.mk.inj (Except.ok.inj h)).1

theorem any_statementsFrom {q q' : QuorumVec} {atts : List Attestation}
    (h : replay (Attestation.applyToVec B S) q atts = .ok (some q')) (statement : Bytes) :
    ∃ statements, statementsFrom B S q atts = .ok statements
      ∧ (statement ∈ statements ↔ ∃ att ∈ atts, att.proposal.action = .statement statement) := by
  induction atts generalizing q with
  | nil => exact ⟨[], rfl, by simp⟩
  | cons att atts ih =>
    obtain ⟨next, hap, hr⟩ := replay_cons.mp h
    obtain ⟨more, hm, hmem⟩ := ih hr
    simp only [statementsFrom, hap, bind, Except.bind, hm]
    cases ha : att.proposal.action with
    | statement bytes =>
      refine ⟨bytes :: more, rfl, ?_⟩
      simp only [mem_cons, hmem, exists_eq_or_imp, ha, AttestAction.statement.injEq,
        eq_comm (a := statement)]
    | addMember m | removeMember m | setThreshold m =>
      refine ⟨more, rfl, ?_⟩
      simp [hmem, ha]

/-- **Every chain of approvals folds soundly.** However it was appended to, after each attestation
of the chain there is a quorum, strictly sorted, whose members are exactly those that the search
finds, and whose number counts the attestations; the attestation that follows carries the signatures
of at least a threshold of its members. The whole chain has come to the last of these quorums,
another append that is rejected leaves it, and a statement is authorized exactly if some attestation
states it. -/
theorem attempted_chain_sound (B : BinarySearch) (S : SigScheme) (members : List B32)
    (threshold : ℕ) (attempts : List Attestation) :
    let chain := attempted B S members threshold attempts
    (∀ n ≤ chain.attestations.length, ∃ q, (chain.upTo n).current B S = .ok (some q)
      ∧ q.members.Pairwise (· < ·) ∧ (∀ id, q.isMember B id ↔ id ∈ q.members)
      ∧ q.seq.val = chain.genesis.seq.val + n
      ∧ ∀ att, chain.attestations[n]? = some att
        → ∃ signers : Finset B32, q.threshold ≤ signers.card ∧ ∀ m ∈ signers, m ∈ q.members
          ∧ ∃ s ∈ att.signatures, s.member = m
          ∧ S.verifyBytes m att.proposal.signingBytes s.signature)
    ∧ (∃ q, chain.current B S = .ok (some q)
      ∧ q.seq.val = chain.genesis.seq.val + chain.attestations.length)
    ∧ (∀ att chain', chain.append B S att = .ok (false, chain') → chain' = chain)
    ∧ ∀ statement, chain.isAuthorized B S statement
        = .ok (decide (∃ att ∈ chain.attestations, att.proposal.action
          = .statement statement)) := by
  intro chain
  obtain ⟨hgenesis, last, hlast⟩ := exists_current_attempted S (.genesis members threshold) attempts
  have hvec : chain = (QuorumChain.attempted S (.genesis members threshold) attempts).vec :=
    attempted_eq_vec members threshold attempts
  generalize QuorumChain.attempted S (.genesis members threshold) attempts
    = abstract at hgenesis hlast hvec
  obtain ⟨genesis, atts⟩ := abstract
  obtain rfl : genesis = .genesis members threshold := hgenesis
  -- the record folds as the quorum does
  have hfold : ∀ {pre p}, fold S (.genesis members threshold) pre = .ok (some p) →
      QuorumChainVec.current B S ⟨Quorum.vec (.genesis members threshold), pre⟩
        = .ok (some p.vec) := by
    intro pre p hp
    have hcurrent := current_vec (B := B) (S := S) ⟨.genesis members threshold, pre⟩
    rw [QuorumChain.current, hp] at hcurrent
    exact hcurrent
  have hseq : chain.genesis.seq.val = 0 := by rw [hvec]; rfl
  have hchain : chain.current B S = .ok (some last.vec) := by rw [hvec]; exact hfold hlast
  have hlen : chain.attestations = atts := by rw [hvec]; rfl
  refine ⟨fun n hn => ?_, ⟨last.vec, hchain, ?_⟩, fun att chain' h => append_eq_false h,
    fun statement => ?_⟩
  · obtain ⟨p, hp⟩ := exists_fold_of_prefix (List.take_prefix n atts) hlast
    refine ⟨p.vec, by rw [upTo, hlen, hvec]; exact hfold hp, p.sorted, fun id => ?_, ?_,
      fun att hatt => ?_⟩
    · rw [Quorum.isMember_vec, Quorum.isMember, decide_eq_true_eq]
      rfl
    · rw [hseq, Nat.zero_add]
      exact (seq_fold hp).trans (length_take_of_le (hlen ▸ hn))
    · rw [hlen] at hatt
      obtain ⟨hlt, rfl⟩ := List.getElem?_eq_some_iff.mp hatt
      have hnext : atts.take n ++ [atts[n]] <+: atts := by
        rw [← take_succ_eq_append_getElem hlt]
        exact take_prefix _ _
      obtain ⟨p', hp'⟩ := exists_fold_of_prefix hnext hlast
      obtain ⟨p₀, hp₀, happly⟩ := fold_concat.mp hp'
      cases hp.symm.trans hp₀
      obtain ⟨hauth, -⟩ := Attestation.applyTo_eq_some.mp happly
      exact ⟨_, (Attestation.authorizes_eq_true.mp hauth).2, fun m hm => Quorum.mem_signers.mp hm⟩
  · rw [hseq, hlen, Nat.zero_add]
    exact seq_fold hlast
  · obtain ⟨statements, hstatements, hmem⟩ := any_statementsFrom hchain statement
    rw [isAuthorized, authorizedStatements, hstatements]
    refine congrArg Except.ok (Bool.eq_iff_iff.mpr ?_)
    rw [any_eq_true, decide_eq_true_eq, ← hmem]
    simp

end QuorumChainVec

end Zephcraft.Com
