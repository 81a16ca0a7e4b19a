import Zephcraft.Noded.Metering
import Zephcraft.Obj.Get

/-!
# Noded/FreeRider — what a provider serves a peer that has not paid

The serve gate compares what the peer was served with what it has served, and grants it some more.
What it has served is what this node has metered; what it **was** served is what its own latest
cheque says.
-/

namespace Zephcraft.Noded

open Zephcraft.Core Settlement Cheque Erasure Obj Store List ChequeService LockedCall Word Run

variable {S : SigScheme}

/-! ## Answering a request -/

/-- The bytes of the pieces: the length of each is taken as a `u64`. -/
def serveBytes (pieces : List CodedPiece) : Except Panic U64 :=
  sumOrPanic (pieces.map fun piece => truncate piece.data.length)

/-- The response of a node that does not serve. -/
def refusal : PieceResponse := ⟨false, 0, 0, 0, [], []⟩

/-- The response with the pieces the store gives. -/
def servedResponse (gen : Option Generation) (pieces : List CodedPiece) : PieceResponse :=
  let shape := gen.getD ⟨0, 0, 0, []⟩
  ⟨!pieces.isEmpty, shape.k, shape.pieceLen, shape.totalLen, shape.vtags, pieces⟩

/-- `handle` of a piece request, for the generation and the pieces that the store has for it. -/
def handlePieceRequest (requester : B32) (gen : Option Generation) (pieces : List CodedPiece) :
    LockedCall (ChequeService S) PieceResponse := do
  match serveBytes pieces with
  | .error p => throw (.panicked p)
  | .ok bytes =>
    if pieces.isEmpty then return servedResponse gen pieces
    else if ← shouldServe requester bytes then return servedResponse gen pieces
    else return refusal

def bytesOf (pieces : List CodedPiece) : ℕ := (pieces.map fun piece => piece.data.length).sum

theorem serveBytes_eq_ok {pieces : List CodedPiece} {bytes : U64}
    (h : serveBytes pieces = .ok bytes) (hf : bytesOf pieces < 2 ^ 64) :
    bytes.val = bytesOf pieces := by
  rw [serveBytes, sumOrPanic_eq_ok, map_map] at h
  rw [h, bytesOf]
  refine congrArg List.sum (map_congr_left fun piece hp => Nat.mod_eq_of_lt ?_)
  exact (single_le_sum (by simp) _ (mem_map_of_mem hp)).trans_lt hf

theorem keeps_handlePieceRequest {γ : Type} {view : ChequeService S → γ} (requester : B32)
    (gen : Option Generation) (pieces : List CodedPiece)
    (hg : ∀ bytes, (shouldServe requester bytes : LockedCall (ChequeService S) Bool).Keeps view) :
    (handlePieceRequest requester gen pieces : LockedCall (ChequeService S) PieceResponse).Keeps
      view := by
  unfold handlePieceRequest
  cases serveBytes pieces with
  | error p => exact fun _ => rfl
  | ok bytes =>
    exact .ite (keeps_pure _) ((hg bytes).bind fun _ => .ite (keeps_pure _) (keeps_pure _))

theorem pieces_handlePieceRequest {s : ChequeService S} {requester : B32} {gen : Option Generation}
    {pieces : List CodedPiece} {resp : PieceResponse}
    (h : ((handlePieceRequest requester gen pieces).exec s).1 = .ok resp) :
    resp.pieces = [] ∨ resp.pieces = pieces
      ∧ ∃ bytes, serveBytes pieces = .ok bytes ∧ ((shouldServe requester bytes).exec s).1
        = .ok true := by
  unfold handlePieceRequest at h
  cases hb : serveBytes pieces with
  | error p =>
    rw [hb] at h
    cases h
  | ok bytes =>
    rw [hb] at h
    dsimp only at h
    by_cases he : pieces.isEmpty = true
    · rw [if_pos he] at h
      cases h
      exact .inl (List.isEmpty_iff.mp he)
    · rw [if_neg he, exec_bind] at h
      rcases hg : (shouldServe requester bytes).exec s with ⟨_ | _ | _, s'⟩ <;> rw [hg] at h
      · cases h
      · cases h
        exact .inl rfl
      · cases h
        exact .inr ⟨rfl, bytes, rfl, congrArg Prod.fst hg⟩

/-! ## Runs -/

/-- A provider, and what it has given a peer and had from it. -/
structure Provider (S : SigScheme) where
  service : ChequeService S
  /-- The bytes served to the peer. -/
  served : ℕ
  /-- The bytes that came from the peer. -/
  peerServed : ℕ
  /-- The largest response to the peer. -/
  largest : ℕ
  /-- The highest grant for a peer that was in force. -/
  granted : ℕ

namespace Provider

inductive Event where
  /-- The peer asks, and the store has these pieces for it. -/
  | request (gen : Option Generation) (pieces : List CodedPiece)
  /-- Any call of the service: cheques of the peer's choice, pieces fetched, requests of others. -/
  | service (e : ChequeService.Event)

variable (peer : B32)

def start (identity : S.Secret) (grant : U64) : Provider S :=
  ⟨{ ChequeService.new identity with peerGrant := grant }, 0, 0, 0, grant.val⟩

def meteredBy : ChequeService.Event → ℕ
  | .onBytesReceived provider bytes _ => if provider = peer then bytes.val else 0
  | _ => 0

def step (s : Provider S) : Event → Provider S
  | .request gen pieces =>
    match (handlePieceRequest peer gen pieces).exec s.service with
    | (.ok resp, service) =>
      { s with
        service, served := s.served + bytesOf resp.pieces
        largest := max s.largest (bytesOf resp.pieces) }
    | (.error _, service) => { s with service }
  | .service e =>
    let service := s.service.step e
    { s with
      service, peerServed := s.peerServed + meteredBy peer e
      granted := max s.granted service.peerGrant.val }

def Unpaid : Event → Prop
  | .service (.setPeerPaid p paid) => p = peer → paid = 0
  | _ => True

/-- When the peer asks, its latest cheque covers all it was served but one response; and the bytes
that it was ever served can be counted. -/
def Acknowledged (s : Provider S) : Event → Prop
  | .request _ pieces =>
    s.served ≤ (s.service.latestFrom peer).val + s.largest ∧ s.served + bytesOf pieces < 2 ^ 64
  | .service _ => True

/-- What the peer was served is within what it has served, the grant and one response. -/
def Bounded (s : Provider S) : Prop := s.served ≤ s.peerServed + s.granted + s.largest
deriving Decidable

/-! ## The invariant -/

variable {peer} {s : Provider S}

variable (peer) in
structure Sound (s : Provider S) : Prop where
  unpaid : s.service.peerPaid.value.getD peer 0 = 0
  /-- What is pending and what is acknowledged came from the peer. -/
  metered : (s.service.pendingFrom peer).val + (s.service.owedTo peer).val ≤ s.peerServed
  granted : s.service.peerGrant.val ≤ s.granted
  bounded : s.Bounded

theorem sound_start (identity : S.Secret) (peer : B32) (grant : U64) :
    Sound peer (start identity grant) where
  unpaid := by simp [start, ChequeService.new]
  metered := by
    simp [start, ChequeService.new, pendingFrom, owedTo, ChequeIssuer.owedTo, ChequeIssuer.new]
  granted := le_rfl
  bounded := Nat.zero_le _

theorem Sound.of_accounts (h : Sound peer s) {service : ChequeService S} {s' : Provider S}
    (hs : s'.service = service) (ha : service.accounts = s.service.accounts)
    (hse : s.peerServed ≤ s'.peerServed) (hg : s.granted ≤ s'.granted) (hb : s'.Bounded) :
    Sound peer s' := by
  subst hs
  have his : s'.service.issuer = s.service.issuer := congrArg ChequeService.Accounts.issuer ha
  have hp : s'.service.pending = s.service.pending := congrArg ChequeService.Accounts.pending ha
  have hpa : s'.service.peerPaid = s.service.peerPaid := congrArg ChequeService.Accounts.peerPaid ha
  have hgr : s'.service.peerGrant = s.service.peerGrant :=
    congrArg ChequeService.Accounts.peerGrant ha
  refine ⟨hpa ▸ h.unpaid, ?_, hgr ▸ h.granted.trans hg, hb⟩
  rw [pendingFrom, owedTo, hp, his]
  exact h.metered.trans hse

/-- **What the gate lets through** is within the bound, if the peer's cheques have kept up. -/
theorem Sound.bound_of_gate (h : Sound peer s) {pieces : List CodedPiece} {bytes : U64}
    (hack : s.served ≤ (s.service.latestFrom peer).val + s.largest)
    (hf : s.served + bytesOf pieces < 2 ^ 64) (hby : serveBytes pieces = .ok bytes)
    (hg : ((shouldServe peer bytes).exec s.service).1 = .ok true) :
    s.served + bytesOf pieces ≤ s.peerServed + s.granted + max s.largest (bytesOf pieces) := by
  have hval := serveBytes_eq_ok hby (by omega)
  have hb := Fin.le_def.mp (shouldServe_eq_true h.unpaid hg)
  rw [val_satAdd, val_satAdd, hval] at hb
  have hm := h.metered
  have hgr := h.granted
  omega

theorem Sound.request (h : Sound peer s) {gen : Option Generation} {pieces : List CodedPiece}
    (hack : Acknowledged peer s (.request gen pieces)) :
    Sound peer (s.step peer (.request gen pieces)) := by
  have ha := keeps_handlePieceRequest (S := S) peer gen pieces
    (keeps_accounts_shouldServe peer) s.service
  rw [step]
  rcases he : (handlePieceRequest peer gen pieces).exec s.service with ⟨_ | resp, service⟩ <;>
    rw [he] at ha
  · exact h.of_accounts rfl ha le_rfl le_rfl h.bounded
  · refine h.of_accounts rfl ha le_rfl le_rfl ?_
    dsimp only [Bounded]
    rcases pieces_handlePieceRequest (congrArg Prod.fst he) with hn | ⟨hp, bytes, hby, hg⟩
    · have hb : s.served ≤ s.peerServed + s.granted + s.largest := h.bounded
      simpa [hn, bytesOf] using hb
    · rw [hp]
      exact h.bound_of_gate hack.1 hack.2 hby hg

theorem getD_setPeerPaid (h : Sound peer s) {p : B32} {paid : U64} (hu : p = peer → paid = 0) :
    ((setPeerPaid p paid).exec s.service).2.peerPaid.value.getD peer 0 = 0 := by
  cases hp : s.service.peerPaid.poisoned with
  | true => simpa [setPeerPaid, withPeerPaid, Mutex.modify, Mutex.withLock, hp] using h.unpaid
  | false =>
    have hv : ((setPeerPaid p paid).exec s.service).2.peerPaid.value
        = s.service.peerPaid.value.insert p paid := Mutex.value_modify hp _
    rw [hv, getD_insert]
    split
    · rename_i hpe
      exact hu hpe
    · exact h.unpaid

theorem Sound.service (h : Sound peer s) {e : ChequeService.Event} (hu : Unpaid peer (.service e)) :
    Sound peer (s.step peer (.service e)) := by
  have hbo : (s.step peer (.service e)).Bounded := by
    have hb : s.served ≤ s.peerServed + s.granted + s.largest := h.bounded
    simp only [Bounded, step]
    omega
  rcases accounts_step s.service e with ha | ⟨provider, bytes, ts, rfl⟩ | ⟨_, rfl⟩ | ⟨p, paid, rfl⟩
    | ⟨_, rfl⟩ | ⟨g, rfl⟩
  · exact h.of_accounts rfl ha (Nat.le_add_right _ _) (le_max_left _ _) hbo
  · obtain ⟨pending, issuer, he⟩ := exec_onBytesReceived_snd s.service provider bytes ts
    have hp : (s.service.step (.onBytesReceived provider bytes ts)).peerPaid
        = s.service.peerPaid := by
      rw [ChequeService.step, he]
      exact (counted_fields s.service bytes).2.2.2.2.1
    refine ⟨hp ▸ h.unpaid, ?_, le_max_right _ _, hbo⟩
    exact (pending_add_owed_le s.service provider peer bytes ts).trans
      (Nat.add_le_add_right h.metered _)
  · exact ⟨h.unpaid, h.metered, le_max_right _ _, hbo⟩
  · exact ⟨getD_setPeerPaid h hu, h.metered, le_max_right _ _, hbo⟩
  · exact ⟨h.unpaid, h.metered, le_max_right _ _, hbo⟩
  · exact ⟨h.unpaid, h.metered, le_max_right _ _, hbo⟩

theorem Sound.step {e : Event} (h : Sound peer s) (hu : Unpaid peer e)
    (hack : Acknowledged peer s e) :
    Sound peer (s.step peer e) := by
  cases e with
  | request gen pieces => exact h.request hack
  | service e => exact h.service hu

/-- **A peer that has not paid is served no more than it has served, the grant and one response**,
in every state of every run in which its latest cheque, whenever it asks, covers all it was served
but one response. -/
theorem served_bounded (identity : S.Secret) (peer : B32) (grant : U64) (events : List Event)
    (hunpaid : ∀ e ∈ events, Unpaid peer e)
    (hack : EachStep (Provider.step peer) (start identity grant) (Acknowledged peer) events) :
    EachState (Provider.step peer) (start identity grant) Bounded events :=
  eachState_of_invariant (C := fun s e => Unpaid peer e ∧ Acknowledged peer s e)
    (sound_start identity peer grant) (fun _ _ h hstep => h.step hstep.1 hstep.2)
      (fun _ h => h.bounded)
    fun pre e hpre => ⟨hunpaid e (hpre.subset (by simp)), hack pre e hpre⟩

/-! ## A peer that signs nothing -/

def providerKey : SigScheme.transparent.Secret := (1 : B32)

def peerKey : SigScheme.transparent.Secret := (2 : B32)

/-- A request for one piece of two bytes. -/
def asks : Event := .request none [⟨[1], [7, 7]⟩]

/-- A peer that signs for each piece before it asks for another. -/
def signsEach : List Event :=
  [asks, .service (.receive (.sign .transparent peerKey 1 2 10)), asks,
    .service (.receive (.sign .transparent peerKey 1 4 11)), asks]

def signsNothing : List Event := [asks, asks, asks, asks]

instance (peer : B32) (s : Provider S) : ∀ e, Decidable (Acknowledged peer s e)
  | .request _ _ => inferInstanceAs (Decidable (_ ∧ _))
  | .service _ => inferInstanceAs (Decidable True)

/-- It is served twice, and then refused. -/
theorem served_bounded_signsEach :
    EachState (Provider.step 2) (start providerKey 5) Bounded signsEach
      ∧ (run (Provider.step 2) (start providerKey 5) signsEach).served = 4 :=
  ⟨served_bounded providerKey 2 5 signsEach (by simp [signsEach, asks, Unpaid]) (by decide +kernel),
    by decide +kernel⟩

/-- **A peer that signs nothing is served without end**: eight bytes, with a grant of three. -/
theorem unsigned_peer_served_beyond :
    (∀ e ∈ signsNothing, Unpaid 2 e)
      ∧ ¬ EachState (Provider.step 2) (start providerKey 3) Bounded signsNothing
      ∧ (run (Provider.step 2) (start providerKey 3) signsNothing).served = 8
      ∧ (run (Provider.step 2) (start providerKey 3) signsNothing).peerServed = 0 :=
  ⟨by simp [signsNothing, asks, Unpaid], by decide +kernel, by decide +kernel, by decide +kernel⟩

end Provider

end Zephcraft.Noded
