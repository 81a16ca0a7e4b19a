import Zephcraft.Noded.Metering
import Zephcraft.Obj.Get

/-!
# Noded/FreeTier — what a node that has not paid may fetch

A `get` asks the fetch gate once, with the length of the content as far as the node knows it, and is
metered piece by piece afterwards.
-/

namespace Zephcraft.Noded

open Zephcraft.Core Settlement Cheque Erasure Obj ChequeService Word Run

variable {S : SigScheme}

/-- A `get` that was admitted and has not ended. -/
structure Running where
  fetch : Fetch
  providers : List B32
  /-- The rounds left. -/
  left : ℕ
  /-- What is left of the round; `none` while its results are out. -/
  work : Option (List Fetch.Item)

namespace Running

def answered (r : Running) (results : List (Option PieceResponse)) : Running :=
  match r.work with
  | some _ => r
  | none => ⟨{ r.fetch with progressed := false }, r.providers, r.left - 1,
    some (Fetch.round r.providers results)⟩

/-- One item of a get; `none` when the get ends. -/
def advance (D : Derivation) (r : Running) (service : ChequeService S) (ts : U64) :
    Option Running × ChequeService S :=
  match r.work with
  | none => (some r, service)
  | some [] =>
    -- the round is over
    (if r.fetch.progressed ∧ r.left ≠ 0 ∧ ¬ r.fetch.isComplete then some { r with work := none }
      else none, service)
  | some (.response resp :: rest) =>
    ((r.fetch.takeResponse resp).toOption.map fun fetch => { r with fetch, work := some rest },
      service)
  | some (.piece provider piece :: rest) =>
    match r.fetch.takePiece D piece with
    | .error _ => (none, service)
    | .ok (false, fetch) => (some { r with fetch, work := some rest }, service)
    | .ok (true, fetch) =>
      let metered := (onBytesReceived provider (truncate piece.data.length) ts).exec service
      (metered.1.toOption.map fun _ => { r with fetch, work := some rest }, metered.2)
  | some (.done :: rest) => (if r.fetch.isComplete then none else some { r with work := some rest },
    service)

def nextPiece (r : Running) : Option CodedPiece :=
  match r.work with
  | some (.piece _ piece :: _) => some piece
  | _ => none

theorem service_advance (D : Derivation) (r : Running) (service : ChequeService S) (ts : U64) :
    (r.advance D service ts).2 = service
      ∨ ∃ provider piece, r.nextPiece = some piece ∧ (r.advance D service ts).2
        = ((onBytesReceived provider (truncate piece.data.length) ts).exec service).2 := by
  rcases hw : r.work with _ | _ | ⟨_ | ⟨provider, piece⟩ | _, rest⟩
  · exact .inl (by rw [advance, hw])
  · exact .inl (by rw [advance, hw])
  · exact .inl (by rw [advance, hw])
  · rcases ht : r.fetch.takePiece D piece with _ | ⟨_ | _, fetch⟩
    · exact .inl (by simp only [advance, hw, ht])
    · exact .inl (by simp only [advance, hw, ht])
    · exact .inr ⟨provider, piece, by rw [nextPiece, hw], by simp only [advance, hw, ht]⟩
  · exact .inl (by rw [advance, hw])

end Running

/-- A node's cheque service, its gets, and the most that an admitted get has asked for. -/
structure FreeTier (S : SigScheme) where
  service : ChequeService S
  gets : List Running
  /-- What had been consumed when a get was admitted and the length it asked for: the most, of all
  gets so far. -/
  asked : ℕ

namespace FreeTier

inductive Event where
  /-- A `get` is called. -/
  | get (cid : B32) (held : Holding) (providers : List B32)
  /-- The results of a round are there. -/
  | answers (i : ℕ) (results : List (Option PieceResponse))
  /-- A `get` goes on by one item. -/
  | advance (i : ℕ) (ts : U64)
  /-- Any call of the service. -/
  | service (e : ChequeService.Event)

variable (D : Derivation)

def start (identity : S.Secret) (grant : U64) : FreeTier S :=
  ⟨{ ChequeService.new identity with grant }, [], 0⟩

variable (s : FreeTier S)

/-- `get` up to its first requests. -/
def openGet (cid : B32) (held : Holding) (providers : List B32) : FreeTier S :=
  match held.start D cid with
  | .inl _ => s
  | .inr f =>
    if f.isComplete then s
    else
      match (reciprocityAdmits f.totalLen).exec s.service with
      | (.ok true, service) =>
        { service
          gets :=
            if providers.isEmpty then s.gets else s.gets ++ [⟨f, providers, Fetch.maxRounds, none⟩]
          asked := max s.asked (s.service.consumed.val + f.totalLen.val) }
      | (_, service) => { s with service }

def step : Event → FreeTier S
  | .get cid held providers => s.openGet D cid held providers
  | .answers i results => { s with gets := s.gets.modify i (·.answered results) }
  | .advance i ts =>
    match s.gets[i]? with
    | none => s
    | some r =>
      match r.advance D s.service ts with
      | (none, service) => { s with service, gets := s.gets.eraseIdx i }
      | (some r, service) => { s with service, gets := s.gets.set i r }
  | .service e => { s with service := s.service.step e }

/-! ## What the runs are about -/

/-- A node that has not paid, with a constant grant: only its gets are metered. -/
def Free (grant : U64) : Event → Prop
  | .service (.onBytesReceived _ _ _) => False
  | .service (.setMyPaid paid) => paid = 0
  | .service (.setGrant g) => g = grant
  | _ => True

/-- A piece that comes up next takes the consumption no further than some admitted get has asked
for. -/
def WithinAsked : Event → Prop
  | .advance i _ => ∀ piece ∈ s.gets[i]?.bind Running.nextPiece,
    s.service.consumed.val + piece.data.length ≤ s.asked
  | _ => True

/-- Consumption is within what was earned and the grant. -/
def Capped : Prop := s.service.consumed.val ≤ s.service.book.value.worth + s.service.grant.val
deriving Decidable

/-! ## The invariant -/

variable {D} {grant : U64} {s : FreeTier S}

/-- What holds along such runs: neither consumption nor what an admitted get asked for is beyond the
budget. -/
structure Sound (grant : U64) (s : FreeTier S) : Prop where
  unpaid : s.service.myPaid = 0
  granted : s.service.grant = grant
  capped : s.service.consumed.val ≤ s.service.book.value.worth + grant.val
  /-- The counter is a `u64`, and the gate's sums saturate. -/
  asked : min s.asked (2 ^ 64 - 1) ≤ s.service.book.value.worth + grant.val

theorem sound_start (identity : S.Secret) (grant : U64) : Sound grant (start identity grant) where
  unpaid := rfl
  granted := rfl
  capped := Nat.zero_le _
  asked := Nat.zero_le _

theorem Sound.of_accounts (h : Sound grant s) {service : ChequeService S} (gets : List Running)
    (ha : service.accounts = s.service.accounts)
    (hw : s.service.book.value.worth ≤ service.book.value.worth) :
    Sound grant ⟨service, gets, s.asked⟩ := by
  have hc : service.consumed = s.service.consumed := congrArg ChequeService.Accounts.consumed ha
  refine ⟨(congrArg ChequeService.Accounts.myPaid ha).trans h.unpaid,
    (congrArg ChequeService.Accounts.grant ha).trans h.granted, ?_, ?_⟩
  · rw [hc]
    exact h.capped.trans (Nat.add_le_add_right hw _)
  · exact h.asked.trans (Nat.add_le_add_right hw _)

theorem Sound.service (h : Sound grant s) {e : ChequeService.Event} (hf : Free grant (.service e)) :
    Sound grant (s.step D (.service e)) := by
  have hw := worth_le_step s.service e
  rcases accounts_step s.service e with ha | ⟨_, _, _, rfl⟩ | ⟨_, rfl⟩ | ⟨_, _, rfl⟩ | ⟨_,
    rfl⟩ | ⟨_, rfl⟩
  · exact h.of_accounts s.gets ha hw
  · exact hf.elim
  · exact { h with unpaid := hf }
  · exact { h with }
  · exact { h with granted := hf }
  · exact { h with }

theorem Sound.openGet (h : Sound grant s) (cid : B32) (held : Holding) (providers : List B32) :
    Sound grant (s.openGet D cid held providers) := by
  rw [FreeTier.openGet]
  split
  · exact h
  · rename_i f hs
    by_cases hc : f.isComplete = true
    · rwa [if_pos hc]
    · have ha := keeps_accounts_reciprocityAdmits f.totalLen s.service
      have hw : s.service.book.value.worth
          ≤ ((reciprocityAdmits f.totalLen).exec s.service).2.book.value.worth :=
        worth_le_step s.service (.reciprocityAdmits f.totalLen)
      rw [if_neg hc]
      split
      · rename_i service he
        obtain ⟨earned, hea, hle⟩ := reciprocityAdmits_eq_true h.unpaid (congrArg Prod.fst he)
        rw [he] at ha hw
        have hk := h.of_accounts s.gets ha hw
        refine ⟨hk.unpaid, hk.granted, hk.capped, ?_⟩
        have hb := Fin.le_def.mp hle
        rw [val_satAdd, val_satAdd, ChequeBook.totalEarned_eq_ok.mp hea, h.granted] at hb
        have hask := h.asked
        dsimp only at hw ⊢
        omega
      · rename_i service _ he
        rw [he] at ha hw
        exact h.of_accounts _ ha hw

theorem Sound.metered (h : Sound grant s) {provider : B32} {bytes ts : U64} (gets : List Running)
    (hw : s.service.consumed.val + bytes.val ≤ s.asked) :
    Sound grant ⟨((onBytesReceived provider bytes ts).exec s.service).2, gets, s.asked⟩ := by
  obtain ⟨pending, issuer, he⟩ := exec_onBytesReceived_snd s.service provider bytes ts
  have hc :
      s.service.counted bytes = { s.service with consumed := s.service.consumed + bytes } := by
    rw [counted, if_neg (by simp [h.unpaid])]
  rw [he, hc]
  refine { h with capped := ?_ }
  have ha := h.asked
  have hval : (s.service.consumed + bytes).val = (s.service.consumed.val + bytes.val) % 2 ^ 64 :=
    Fin.val_add _ _
  dsimp only
  rw [hval]
  have hle : (s.service.consumed.val + bytes.val) % 2 ^ 64 ≤ s.service.consumed.val + bytes.val :=
    Nat.mod_le _ _
  have hlt : (s.service.consumed.val + bytes.val) % 2 ^ 64 < 2 ^ 64 := Nat.mod_lt _ (by norm_num)
  omega

theorem Sound.advance (h : Sound grant s) {i : ℕ} {ts : U64} (hw : WithinAsked s (.advance i ts)) :
    Sound grant (s.step D (.advance i ts)) := by
  cases hget : s.gets[i]? with
  | none =>
    rw [step, hget]
    exact h
  | some r =>
    have hs : ∀ gets, Sound grant ⟨(r.advance D s.service ts).2, gets, s.asked⟩ := fun gets => by
      rcases r.service_advance D s.service ts with hsa | ⟨provider, piece, hn, hm⟩
      · rw [hsa]
        exact { h with }
      · rw [hm]
        rw [WithinAsked, hget, Option.bind_some] at hw
        exact h.metered gets ((Nat.add_le_add_left (Nat.mod_le _ _) _).trans (hw piece hn))
    rcases ha : r.advance D s.service ts with ⟨_ | _, service⟩ <;> rw [ha] at hs <;>
      simp only [step, hget, ha] <;> exact hs _

theorem Sound.step (h : Sound grant s) {e : Event} (hf : Free grant e) (hw : WithinAsked s e) :
    Sound grant (s.step D e) := by
  cases e with
  | get cid held providers => exact h.openGet cid held providers
  | answers i results => exact { h with }
  | advance i ts => exact h.advance hw
  | service e => exact h.service hf

/-! ## Runs -/

/-- **Consumption stays within what was earned and the grant**, in every state of every run of gets,
as long as no piece takes it beyond what some admitted get has asked for. -/
theorem consumption_capped (D : Derivation) (identity : S.Secret) (grant : U64)
    (events : List Event) (hfree : ∀ e ∈ events, Free grant e)
    (hwithin : EachStep (FreeTier.step D) (start identity grant) WithinAsked events) :
    EachState (FreeTier.step D) (start identity grant) Capped events := by
  refine eachState_of_invariant (C := fun s e => Free grant e ∧ WithinAsked s e)
    (sound_start identity grant) (fun s e h hstep => h.step hstep.1 hstep.2)
      (fun s h => ?_) fun pre e hpre => ⟨hfree e ?_, hwithin pre e hpre⟩
  · rw [Capped, h.granted]
    exact h.capped
  · exact hpre.subset (by simp)

/-! ## A content of which nothing is known -/

/-- A response with the two bytes `[7, 7]` as one piece. -/
def twoBytes : PieceResponse :=
  ⟨true, 1, 2, 2, VTags.encode ⟨VTags.schemeNullSpaceV1, 1, 2,
    [VTags.tagOf .repeated [[7, 7]] 2 5]⟩, [⟨[1], [7, 7]⟩]⟩

/-- A store with nothing of a content, and one that knows its generation and has a piece of no
use. -/
def nothingHeld : Holding := ⟨none, none, []⟩

def lengthKnown : Holding := ⟨none, some ⟨1, 2, 2, twoBytes.vtags⟩, [⟨[0], [0, 0]⟩]⟩

def oneGet (held : Holding) : List Event :=
  [.get 9 held [7], .answers 0 [some twoBytes], .advance 0 10, .advance 0 11, .advance 0 12]

def nodeKey : SigScheme.transparent.Secret := (1 : B32)

instance (s : FreeTier S) : ∀ e, Decidable (WithinAsked s e)
  | .get _ _ _ | .answers _ _ | .service _ => inferInstanceAs (Decidable True)
  | .advance i _ => inferInstanceAs (Decidable (∀ piece ∈ s.gets[i]?.bind Running.nextPiece, _ ≤ _))

/-- The second get begins when the first one has its piece, and is done before the first one
ends. -/
def overlapping : List Event :=
  [.get 9 lengthKnown [7], .answers 0 [some twoBytes], .advance 0 10, .advance 0 11,
    .get 9 lengthKnown [7], .answers 1 [some twoBytes], .advance 1 12, .advance 1 13, .advance 1 14,
    .advance 0 15]

/-- A length that is known is asked for. -/
theorem consumption_capped_overlapping :
    EachState (FreeTier.step .repeated) (start nodeKey 4) Capped overlapping
      ∧ (run (FreeTier.step .repeated) (start nodeKey 4) overlapping).service.consumed = 4 :=
  ⟨consumption_capped .repeated nodeKey 4 overlapping (by simp [overlapping, Free])
    (by decide +kernel), by decide +kernel⟩

/-- **A content of which nothing is known is fetched beyond the budget**: the gate is asked about no
bytes. -/
theorem unknown_content_beyond_cap :
    (∀ e ∈ oneGet nothingHeld, Free 1 e)
      ∧ ¬ EachState (FreeTier.step .repeated) (start nodeKey 1) Capped (oneGet nothingHeld)
      ∧ (run (FreeTier.step .repeated) (start nodeKey 1) (oneGet nothingHeld)).service.consumed
        = 2 :=
  ⟨by simp [oneGet, Free], by decide +kernel, by decide +kernel⟩

end FreeTier

end Zephcraft.Noded
