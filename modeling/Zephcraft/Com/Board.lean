import Zephcraft.Core.Identity
import Zephcraft.Foundations.Blake3
import Zephcraft.Foundations.Keyed

/-!
# Com/Board — requests to re-run a program, and verdicts on them

A producer posts the run of a program with the output it claims; verifiers re-run it and post signed
verdicts. The board checks nothing: it keeps the first request of each hash, and the last verdict of
each verifier on each hash.
-/

namespace Zephcraft.Com

open Zephcraft.Core List Std.ExtTreeMap

/-- The low `k` bytes of `n`, most significant first. -/
def beBytes (k n : ℕ) : Bytes := (leBytes k n).reverse

/-- The run to be verified; the function's name is its bytes. -/
structure VerifyRequest where
  programCid : B32
  func : Bytes
  prevState : Bytes
  request : Bytes
  now : U64
  claimedOutput : Bytes

namespace VerifyRequest

/-- The id of the run. A length is cut to 32 bits. -/
def requestHash (r : VerifyRequest) : B32 :=
  blake3 (r.programCid.toBytes ++ beBytes 4 r.func.length ++ r.func ++ beBytes 4 r.prevState.length
    ++ r.prevState ++ beBytes 4 r.request.length ++ r.request ++ beBytes 8 r.now.val)

def outputHash (r : VerifyRequest) : B32 := blake3 r.claimedOutput

end VerifyRequest

/-- A verifier's signed answer. -/
structure Verdict where
  verifier : B32
  requestHash : B32
  outputHash : B32
  agree : Bool
  signature : Bytes
deriving DecidableEq

def verdictSigningBytes (verifier requestHash outputHash : B32) (agree : Bool) : Bytes :=
  ascii "craftec/verify/verdict/1" ++ verifier.toBytes ++ requestHash.toBytes ++ outputHash.toBytes
    ++ [if agree then 1 else 0]

namespace Verdict

variable (S : SigScheme)

def sign (identity : S.Secret) (requestHash outputHash : B32) (agree : Bool) : Verdict :=
  let verifier := S.nodeId identity
  ⟨verifier, requestHash, outputHash, agree,
    S.sign identity (verdictSigningBytes verifier requestHash outputHash agree)⟩

def verifySig (v : Verdict) : Bool :=
  S.verifyBytes v.verifier (verdictSigningBytes v.verifier v.requestHash v.outputHash v.agree)
    v.signature

/-- The run and the verifier a verdict is filed under. -/
def key (v : Verdict) : B32 × B32 := (v.requestHash, v.verifier)

end Verdict

/-- Who may verify. -/
inductive VerifierSet where
  | anyone
  | whitelist (nodes : List B32)

def VerifierSet.allows : VerifierSet → B32 → Bool
  | anyone, _ => true
  | whitelist nodes, node => node ∈ nodes

/-- How many verifiers must agree, and which count. -/
structure VerifyPolicy where
  k : ℕ
  verifiers : VerifierSet

/-- A request on the board. -/
structure PostedRequest where
  producer : B32
  req : VerifyRequest
  policy : VerifyPolicy

def PostedRequest.key (p : PostedRequest) : B32 := p.req.requestHash

/-- What boards exchange. -/
structure BoardSnapshot where
  requests : List PostedRequest
  verdicts : List Verdict

/-- The board. The verdicts, in the source a map of maps, are filed under the run and the
verifier. -/
structure Board where
  requests : BTreeMap B32 PostedRequest
  verdicts : BTreeMap (B32 × B32) Verdict
  filedRequests : Keyed.Filed PostedRequest.key requests
  filedVerdicts : Keyed.Filed Verdict.key verdicts

namespace Board

def new : Board := ⟨∅, ∅, Keyed.filed_empty, Keyed.filed_empty⟩

/-- Post a request: the first of its hash stays. -/
def postRequest (b : Board) (posted : PostedRequest) : Board :=
  { b with
    requests := Keyed.fileFirst PostedRequest.key b.requests posted
    filedRequests := b.filedRequests.fileFirst }

/-- Post a verdict: the last of its verifier stays. -/
def postVerdict (b : Board) (v : Verdict) : Board :=
  { b with
    verdicts := Keyed.fileLast Verdict.key b.verdicts v
    filedVerdicts := b.filedVerdicts.fileLast }

def snapshot (b : Board) : BoardSnapshot := ⟨Keyed.entries b.requests, Keyed.entries b.verdicts⟩

def merge (b : Board) (snap : BoardSnapshot) : Board :=
  snap.verdicts.foldl postVerdict (snap.requests.foldl postRequest b)

section Reads

variable (S : SigScheme) (posted : PostedRequest)

/-- A verdict counts for a request: it agrees, is on this run and output, is by an eligible verifier
other than the producer, and is signed. -/
def counts (v : Verdict) : Bool :=
  v.agree && v.requestHash = posted.req.requestHash && v.outputHash = posted.req.outputHash
    && v.verifier ≠ posted.producer && posted.policy.verifiers.allows v.verifier && v.verifySig S

variable (b : Board)

def validVerdicts : List Verdict :=
  ((b.verdicts.toList.filter fun e => e.1.1 = posted.req.requestHash).map Prod.snd).filter
    (counts S posted)

def validAgreements : ℕ := (b.validVerdicts S posted).length

def satisfied : Bool := posted.policy.k ≤ b.validAgreements S posted

/-- The certificate of a request that reached its policy. -/
def collected : Option (List Verdict) :=
  if posted.policy.k ≤ (b.validVerdicts S posted).length then some (b.validVerdicts S posted)
    else none

def grabbableBy (node : B32) : List PostedRequest :=
  (Keyed.entries b.requests).filter fun p =>
    p.producer
      ≠ node && p.policy.verifiers.allows node && !(b.verdicts[(p.req.requestHash, node)]?).isSome
      && !b.satisfied S p

end Reads

/-! ## What is on a board -/

section Lookup

variable {b : Board} {snap : BoardSnapshot}

theorem foldl_postRequest (l : List PostedRequest) (b : Board) :
    (l.foldl postRequest b).requests = l.foldl (Keyed.fileFirst PostedRequest.key) b.requests
      ∧ (l.foldl postRequest b).verdicts = b.verdicts := by
  induction l generalizing b with
  | nil => exact ⟨rfl, rfl⟩
  | cons p l ih => exact ih (b.postRequest p)

theorem foldl_postVerdict (l : List Verdict) (b : Board) :
    (l.foldl postVerdict b).verdicts = l.foldl (Keyed.fileLast Verdict.key) b.verdicts
      ∧ (l.foldl postVerdict b).requests = b.requests := by
  induction l generalizing b with
  | nil => exact ⟨rfl, rfl⟩
  | cons v l ih => exact ih (b.postVerdict v)

end Lookup

end Board

namespace BoardSnapshot

def request (snap : BoardSnapshot) (hash : B32) : Option PostedRequest :=
  snap.requests.find? fun p => p.key = hash

/-- The last verdict of a verifier on a hash. -/
def standing (snap : BoardSnapshot) (hash node : B32) : Option Verdict :=
  snap.verdicts.reverse.find? fun v => v.key = (hash, node)

theorem key_of_request {snap : BoardSnapshot} {hash : B32} {p : PostedRequest}
    (h : snap.request hash = some p) : p.req.requestHash = hash := by
  have hkey := find?_some h
  exact of_decide_eq_true hkey

theorem key_of_standing {snap : BoardSnapshot} {hash node : B32} {v : Verdict}
    (h : snap.standing hash node = some v) : v.requestHash = hash ∧ v.verifier = node := by
  have hkey := find?_some h
  exact Prod.mk.inj (of_decide_eq_true hkey)

end BoardSnapshot

namespace Board

variable {b : Board} {snap : BoardSnapshot}

theorem request_merge (hash : B32) :
    (b.merge snap).requests[hash]? = (b.requests[hash]?).or (snap.request hash) := by
  rw [merge, (foldl_postVerdict _ _).2, (foldl_postRequest _ _).1, Keyed.getElem?_foldl_fileFirst]
  rfl

theorem verdict_merge (hash node : B32) :
    (b.merge snap).verdicts[(hash, node)]?
      = (snap.standing hash node).or b.verdicts[(hash, node)]? := by
  rw [merge, (foldl_postVerdict _ _).1, (foldl_postRequest _ _).2, Keyed.getElem?_foldl_fileLast]
  rfl

theorem request_snapshot (hash : B32) : b.snapshot.request hash = b.requests[hash]? :=
  Keyed.find?_of_perm b.filedRequests (.refl _) hash

theorem standing_snapshot (hash node : B32) :
    b.snapshot.standing hash node = b.verdicts[(hash, node)]? :=
  Keyed.find?_of_perm b.filedVerdicts (reverse_perm _) (hash, node)

/-! ## Who counts -/

section Counting

variable {S : SigScheme} {posted : PostedRequest} {v : Verdict} {node : B32}

theorem counts_iff :
    counts S posted v = true ↔ v.agree = true ∧ v.requestHash = posted.req.requestHash
    ∧ v.outputHash = posted.req.outputHash ∧ v.verifier ≠ posted.producer
    ∧ posted.policy.verifiers.allows v.verifier = true ∧ v.verifySig S = true := by
  simp only [counts, Bool.and_eq_true, decide_eq_true_eq, and_assoc]

theorem mem_validVerdicts :
    v ∈ b.validVerdicts S posted ↔ b.verdicts[(v.requestHash, v.verifier)]? = some v
      ∧ counts S posted v = true := by
  rw [validVerdicts, List.mem_filter]
  refine and_congr_left fun hc => ?_
  constructor
  · intro hv
    obtain ⟨e, he, rfl⟩ := List.mem_map.mp hv
    have hget := mem_toList_iff_getElem?_eq_some.mp (List.mem_filter.mp he).1
    have hkey : (e.2.requestHash, e.2.verifier) = e.1 := b.filedVerdicts e.1 e.2 hget
    rw [hkey]
    exact hget
  · intro hget
    refine List.mem_map.mpr ⟨((v.requestHash, v.verifier), v), List.mem_filter.mpr ⟨?_, ?_⟩, rfl⟩
    · exact mem_toList_iff_getElem?_eq_some.mpr hget
    · exact decide_eq_true (counts_iff.mp hc).2.1

variable (S b posted) in
theorem nodup_verifiers : ((b.validVerdicts S posted).map Verdict.verifier).Nodup := by
  have hsub : (b.validVerdicts S posted).Sublist (Keyed.entries b.verdicts) :=
    filter_sublist.trans (filter_sublist.map _)
  have hk : ((b.validVerdicts S posted).map Verdict.key).Nodup :=
    (Keyed.nodup_keys_entries b.filedVerdicts).sublist (hsub.map _)
  -- they are all on the one run
  refine List.Nodup.of_map (fun n => (posted.req.requestHash, n)) ?_
  have hmap :
      ((b.validVerdicts S posted).map Verdict.verifier).map (fun n => (posted.req.requestHash, n))
      = (b.validVerdicts S posted).map Verdict.key := by
    rw [List.map_map]
    refine map_congr_left fun v hv => ?_
    rw [Function.comp, Verdict.key, (counts_iff.mp (mem_validVerdicts.mp hv).2).2.1]
  rw [hmap]
  exact hk

variable (S b posted) in
def agreeing : Finset B32 := ((b.validVerdicts S posted).map Verdict.verifier).toFinset

variable (S b posted) in
theorem card_agreeing : (b.agreeing S posted).card = b.validAgreements S posted := by
  rw [agreeing, toFinset_card_of_nodup (nodup_verifiers b S posted), length_map, validAgreements]

theorem mem_agreeing : node ∈ b.agreeing S posted
    ↔ ∃ v, b.verdicts[(posted.req.requestHash, node)]? = some v ∧ counts S posted v = true := by
  rw [agreeing, mem_toFinset, List.mem_map]
  constructor
  · rintro ⟨v, hv, rfl⟩
    obtain ⟨hget, hc⟩ := mem_validVerdicts.mp hv
    rw [(counts_iff.mp hc).2.1] at hget
    exact ⟨v, hget, hc⟩
  · rintro ⟨v, hget, hc⟩
    obtain ⟨-, rfl⟩ := Prod.mk.inj (b.filedVerdicts _ v hget)
    rw [← (counts_iff.mp hc).2.1] at hget
    exact ⟨v, mem_validVerdicts.mpr ⟨hget, hc⟩, rfl⟩

theorem mem_grabbableBy {p : PostedRequest} : p ∈ b.grabbableBy S node
    ↔ b.requests[p.req.requestHash]? = some p ∧ p.producer ≠ node ∧ p.policy.verifiers.allows node
      = true ∧ b.verdicts[(p.req.requestHash, node)]? = none ∧ (b.agreeing S p).card
        < p.policy.k := by
  rw [grabbableBy, List.mem_filter, Keyed.mem_entries b.filedRequests, card_agreeing]
  simp only [satisfied, PostedRequest.key, Bool.and_eq_true, decide_eq_true_eq, Bool.not_eq_true',
    Option.isSome_eq_false_iff, Option.isNone_iff_eq_none, decide_eq_false_iff_not, not_le,
    and_assoc]

theorem isSome_collected : (b.collected S posted).isSome = true
    ↔ posted.policy.k ≤ (b.agreeing S posted).card := by
  rw [collected, card_agreeing, validAgreements]
  split <;> simp_all

end Counting

end Board

end Zephcraft.Com
