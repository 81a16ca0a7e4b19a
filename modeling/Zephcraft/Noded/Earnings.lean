import Zephcraft.Noded.Metering

/-!
# Noded/Earnings — what a provider earns from a consumer that restarts

A consumer's cheques to a provider are running totals, and the provider takes one that is higher
than the last.
-/

namespace Zephcraft.Noded

open Zephcraft.Core Settlement Cheque List ChequeService ChequeBook Run

variable {S : SigScheme}

/-- A consumer, the provider it fetches from, and the cheques between them. -/
structure Earnings (S : SigScheme) where
  consumer : ChequeService S
  provider : ChequeService S
  /-- The cheques on their way, each with the bytes that it newly acknowledges. -/
  onTheWay : List (ServingCheque × ℕ)
  /-- All bytes that the consumer has acknowledged. -/
  acknowledged : ℕ

namespace Earnings

inductive Event where
  /-- A piece of the provider is metered. -/
  | fetch (bytes ts : U64)
  /-- The consumer's service starts anew. -/
  | restart
  /-- The next cheque arrives. -/
  | deliver

variable (identity server : S.Secret)

def start : Earnings S := ⟨.new identity, .new server, [], 0⟩

variable (s : Earnings S)

def fetch (bytes ts : U64) : Earnings S :=
  match (onBytesReceived (S.nodeId server) bytes ts).exec s.consumer with
  | (.ok (some cheque), consumer) =>
    let newly := (s.consumer.pendingFrom (S.nodeId server)).val + bytes.val
    { s with
      consumer, onTheWay := s.onTheWay ++ [(cheque, newly)]
      acknowledged := s.acknowledged + newly }
  | (_, consumer) => { s with consumer }

def deliver : Earnings S :=
  match s.onTheWay with
  | [] => s
  | (cheque, _) :: rest =>
    { s with provider := ((receive cheque).exec s.provider).2, onTheWay := rest }

def step : Event → Earnings S
  | .fetch bytes ts => s.fetch server bytes ts
  | .restart => { s with consumer := .new identity }
  | .deliver => s.deliver

/-- What the provider has on record of the consumer. -/
def recorded : ℕ := (s.provider.latestFrom (S.nodeId identity)).val

/-- The next cheque, if it arrives now, raises the record by what it newly acknowledges. -/
def Raises (e : Event) : Prop :=
  match e, s.onTheWay with
  | .deliver, (_, newly) :: _ => s.deliver.recorded identity = s.recorded identity + newly
  | _, _ => True

instance (s : Earnings S) : ∀ e, Decidable (Raises identity s e)
  | .deliver => match s with
    | ⟨_, _, [], _⟩ => inferInstanceAs (Decidable True)
    | ⟨_, _, _ :: _, _⟩ => inferInstanceAs (Decidable (_ = _))
  | .fetch _ _ | .restart => inferInstanceAs (Decidable True)

/-! ## Lives -/

/-- The bytes metered in the current life, and in those before. -/
def addTo (lives : ℕ × List ℕ) : Event → ℕ × List ℕ
  | .fetch bytes _ => (lives.1 + bytes.val, lives.2)
  | .restart => (0, lives.1 :: lives.2)
  | .deliver => lives

def livesOf (events : List Event) : ℕ × List ℕ := events.foldl addTo (0, [])

/-- A life in which a cheque is signed: one that meters as much as the credit band. -/
def Signs (bytes : ℕ) : Prop := creditBand.val ≤ bytes
deriving Decidable

/-- **One life signs**, at most, and all lives together meter what a `u64` counts. -/
structure OneLife (lives : ℕ × List ℕ) : Prop where
  signs : (lives.1 :: lives.2).countP (Signs ·) ≤ 1
  total : (lives.1 :: lives.2).sum < 2 ^ 64

instance (lives : ℕ × List ℕ) : Decidable (OneLife lives) :=
  decidable_of_iff (_ ∧ _) ⟨fun h => ⟨h.1, h.2⟩, fun h => ⟨h.signs, h.total⟩⟩

theorem OneLife.of_addTo {lives : ℕ × List ℕ} {e : Event} (h : OneLife (addTo lives e)) :
    OneLife lives := by
  obtain ⟨hs, ht⟩ := h
  cases e with
  | fetch bytes ts =>
    simp only [addTo, sum_cons, countP_cons] at hs ht
    refine ⟨?_, ?_⟩
    · rw [countP_cons]
      have hm : Signs lives.1 → Signs (lives.1 + bytes.val) :=
        fun h => h.trans (Nat.le_add_right _ _)
      by_cases hn : Signs lives.1
      · simp only [hn, hm hn, decide_true, if_true] at hs ⊢
        exact hs
      · simp only [hn, decide_false, Bool.false_eq_true, if_false]
        split at hs <;> omega
    · rw [sum_cons]
      omega
  | restart =>
    simp only [addTo, sum_cons, zero_add] at ht
    refine ⟨?_, by simpa using ht⟩
    dsimp only [addTo] at hs
    rw [countP_cons] at hs
    omega
  | deliver => exact ⟨hs, ht⟩

/-! ## The chain of cheques -/

/-- The cheques continue the record, one after the other, up to all that is acknowledged. -/
def Chained : ℕ → List (ServingCheque × ℕ) → ℕ → Prop
  | record, [], total => record = total
  | record, (c, newly) :: rest, total =>
    (0 < newly ∧ c.cumulativeBytes.val = record + newly ∧ c.server = S.nodeId server
      ∧ c.consumer = S.nodeId identity ∧ c.verify S = true) ∧ Chained (record + newly) rest total

variable {identity server}

theorem Chained.concat {record newly total : ℕ} {cheques : List (ServingCheque × ℕ)}
    {c : ServingCheque} (h : Chained identity server record cheques total) (hpos : 0 < newly)
    (hc : c.cumulativeBytes.val = total + newly ∧ c.server = S.nodeId server
      ∧ c.consumer = S.nodeId identity ∧ c.verify S = true) :
        Chained identity server record (cheques ++ [(c, newly)]) (total + newly) := by
  induction cheques generalizing record with
  | nil =>
    obtain rfl : record = total := h
    exact ⟨⟨hpos, hc⟩, rfl⟩
  | cons e cheques ih => exact ⟨h.1, ih h.2⟩

theorem latestFrom_val (s : ChequeService S) (consumer : B32) :
    (s.latestFrom consumer).val = s.book.value.received[consumer]?.elim 0 fun c =>
      c.cumulativeBytes.val := by
  rw [ChequeService.latestFrom, ChequeBook.latestFrom]
  cases s.book.value.received[consumer]? <;> rfl

theorem book_receive {s : ChequeService S} {c : ServingCheque} (hb : s.book.poisoned = false)
    (hs : c.server = s.book.value.me) (hv : c.verify S = true)
    (hh : s.latestFrom c.consumer < c.cumulativeBytes) :
    ((receive c).exec s).2.book
      = ⟨{ s.book.value with received := s.book.value.received.insert c.consumer c }, false⟩ := by
  have hst : s.book.value.stale c = false := by
    rw [stale]
    rw [ChequeService.latestFrom, ChequeBook.latestFrom] at hh
    cases hp : s.book.value.received[c.consumer]? with
    | none => rfl
    | some prev =>
      rw [hp] at hh
      simpa using hh
  have hr : s.book.value.record S c
      = ({ s.book.value with received := s.book.value.received.insert c.consumer c }, true) := by
    rw [ChequeBook.record, if_neg (by simp [hs, hv]), hst]
    rfl
  simp [receive, modifyBook, Mutex.modify, Mutex.withLock, hb, hr]

theorem exec_totalEarned {s : ChequeService S} {earned : U64} (hb : s.book.poisoned = false)
    (he : earned.val = s.book.value.worth) : (ChequeService.totalEarned.exec s).1 = .ok earned := by
  simp [ChequeService.totalEarned, readBook, Mutex.read, Mutex.withLock, hb,
    totalEarned_eq_ok.mpr he, Except.map]

/-! ## The invariant -/

variable (identity server) in
/-- What holds as long as one life signs, at most. -/
structure Sound (lives : ℕ × List ℕ) (s : Earnings S) : Prop where
  signer : s.consumer.identity = identity
  pending : s.consumer.pending.poisoned = false
  issuer : s.consumer.issuer.poisoned = false
  book : s.provider.book.poisoned = false
  me : s.provider.book.value.me = S.nodeId server
  /-- What is metered in this life is pending or acknowledged. -/
  metered :
    (s.consumer.pendingFrom (S.nodeId server)).val + (s.consumer.owedTo (S.nodeId server)).val
      = lives.1
  below : s.consumer.pendingFrom (S.nodeId server) < creditBand
  /-- A cheque acknowledges as much as the band. -/
  owed : (s.consumer.owedTo (S.nodeId server)).val = 0
    ∨ Signs (s.consumer.owedTo (S.nodeId server)).val
  /-- The cheques of this life are all there are, or an earlier life has signed. -/
  acknowledged : s.acknowledged = (s.consumer.owedTo (S.nodeId server)).val ∨ ∃ n ∈ lives.2, Signs n
  chained : Chained identity server (s.recorded identity) s.onTheWay s.acknowledged
  /-- The provider has cheques of no other consumer. -/
  worth : s.provider.book.value.worth = s.recorded identity

theorem pendingFrom_new (provider : B32) :
    (ChequeService.new identity).pendingFrom provider = 0 := by
  simp [pendingFrom, ChequeService.new]

theorem owedTo_new (provider : B32) : (ChequeService.new identity).owedTo provider = 0 := by
  simp [owedTo, ChequeService.new, ChequeIssuer.owedTo, ChequeIssuer.new]

theorem recorded_start : (start identity server).recorded identity = 0 := by
  simp [start, recorded, ChequeService.latestFrom, ChequeService.new, ChequeBook.latestFrom,
    ChequeBook.new]

theorem sound_start (identity server : S.Secret) :
    Sound identity server (0, []) (start identity server) where
  signer := rfl
  pending := rfl
  issuer := rfl
  book := rfl
  me := rfl
  metered := by simp [start, pendingFrom_new, owedTo_new]
  below := by rw [start, pendingFrom_new]; decide
  owed := .inl (by rw [start, owedTo_new]; rfl)
  acknowledged := .inl (by rw [start, owedTo_new]; rfl)
  chained := recorded_start
  worth := (BTreeMap.total_empty _).trans recorded_start.symm

variable {lives : ℕ × List ℕ} {s : Earnings S}

theorem Sound.restart (h : Sound identity server lives s) :
    Sound identity server (addTo lives .restart) (s.step identity server .restart) := by
  have hf := sound_start identity server
  refine { h with
    signer := rfl, pending := rfl, issuer := rfl, metered := hf.metered, below := hf.below
    owed := hf.owed, acknowledged := ?_ }
  rcases h.acknowledged with hack | ⟨n, hn, hsi⟩
  · rcases h.owed with hz | hs
    · exact .inl (hack.trans (hz.trans (by rw [step, owedTo_new]; rfl)))
    · exact .inr ⟨lives.1, mem_cons_self, hs.trans (h.metered ▸ Nat.le_add_left _ _)⟩
  · exact .inr ⟨n, mem_cons_of_mem _ hn, hsi⟩

theorem Sound.deliver (h : Sound identity server lives s) :
    Raises identity s .deliver ∧ Sound identity server lives (s.step identity server .deliver) := by
  obtain ⟨consumer, provider, _ | ⟨⟨c, newly⟩, rest⟩, acknowledged⟩ := s
  · exact ⟨trivial, h⟩
  · obtain ⟨⟨hpos, hc, hs, hco, hv⟩, hre⟩ := h.chained
    change c.cumulativeBytes.val = (provider.latestFrom (S.nodeId identity)).val + newly at hc
    have hh : provider.latestFrom c.consumer < c.cumulativeBytes := by
      rw [hco, Fin.lt_def, hc]
      exact Nat.lt_add_of_pos_right hpos
    have hb := book_receive h.book (hs.trans h.me.symm) hv hh
    have hr : (((receive c).exec provider).2.latestFrom (S.nodeId identity)).val
        = (provider.latestFrom (S.nodeId identity)).val + newly := by
      rw [← hco] at hc ⊢
      rw [← hc, ChequeService.latestFrom, hb]
      simp [ChequeBook.latestFrom]
    have hw : ((receive c).exec provider).2.book.value.worth
        = (((receive c).exec provider).2.latestFrom (S.nodeId identity)).val := by
      have hin := worth_insert provider.book.value c
      rw [← latestFrom_val, hco] at hin
      have hsa : provider.book.value.worth = (provider.latestFrom (S.nodeId identity)).val :=
        h.worth
      rw [hb, hr, hco]
      dsimp only
      omega
    refine ⟨hr, { h with
      book := congrArg Mutex.poisoned hb
      me := (congrArg (·.value.me) hb).trans h.me
      chained := ?_
      worth := hw }⟩
    change Chained identity server
      (((receive c).exec provider).2.latestFrom (S.nodeId identity)).val rest acknowledged
    rw [hr]
    exact hre

theorem OneLife.not_signs {n : ℕ} {earlier : List ℕ} (h : OneLife (n, earlier)) (hn : Signs n) :
    ¬ ∃ m ∈ earlier, Signs m := by
  rintro ⟨m, hm, hs⟩
  have hpos : 0 < earlier.countP (Signs ·) := countP_pos_iff.mpr ⟨m, hm, by simpa using hs⟩
  have hc : (n :: earlier).countP (Signs ·) ≤ 1 := h.signs
  rw [countP_cons_of_pos (by simpa using hn)] at hc
  omega

theorem Sound.fetch {bytes ts : U64} (h : Sound identity server lives s)
    (hone : OneLife (addTo lives (.fetch bytes ts))) :
    Sound identity server (addTo lives (.fetch bytes ts))
      (s.step identity server (.fetch bytes ts)) := by
  have ht := hone.total
  rw [addTo, sum_cons] at ht
  dsimp only at ht
  have hm := h.metered
  have hf : (s.consumer.pendingFrom (S.nodeId server)).val + bytes.val < 2 ^ 64 := by omega
  obtain ⟨acc, hacc, hval⟩ : ∃ acc : U64,
      (s.consumer.pendingFrom (S.nodeId server)).addOrPanic bytes = .ok acc
      ∧ acc.val = (s.consumer.pendingFrom (S.nodeId server)).val + bytes.val :=
    ⟨⟨_, hf⟩, Word.addOrPanic_eq_ok.mpr rfl, rfl⟩
  rw [step, Earnings.fetch]
  rcases lt_or_ge acc creditBand with hlt | hle
  · obtain ⟨s', he, hsi, hp, his, hacc'⟩ :=
      exec_onBytesReceived_of_lt ts h.pending hacc hlt
    have ho : s'.owedTo (S.nodeId server) = s.consumer.owedTo (S.nodeId server) := by
      rw [owedTo, his, owedTo]
    rw [he]
    refine { h with
      signer := hsi.trans h.signer
      pending := hp
      issuer := (congrArg Mutex.poisoned his).trans h.issuer
      metered := ?_
      below := hacc'.symm ▸ hlt
      owed := ho.symm ▸ h.owed
      acknowledged := ho.symm ▸ h.acknowledged }
    change (s'.pendingFrom _).val + (s'.owedTo _).val = lives.1 + bytes.val
    rw [hacc', ho]
    omega
  · obtain ⟨s', he, hsi, hp, his, hacc', ho⟩ :=
      exec_onBytesReceived_of_le ts h.pending h.issuer hacc hle
    rw [he, h.signer]
    have hs : ((s.consumer.owedTo (S.nodeId server)).satAdd acc).val
        = (s.consumer.owedTo (S.nodeId server)).val + acc.val := Word.val_satAdd_of_lt (by omega)
    have hsig : Signs (lives.1 + bytes.val) := by
      rw [Signs, ← hm]
      have hb := Fin.le_def.mp hle
      omega
    -- no earlier life has signed, so the cheques of this one are all there are
    have hack := h.acknowledged.resolve_right (hone.not_signs hsig)
    have hb : 0 < acc.val :=
      (Nat.zero_lt_of_lt (by decide : 0 < creditBand.val)).trans_le (Fin.le_def.mp hle)
    refine { h with
      signer := hsi.trans h.signer
      pending := hp
      issuer := his
      metered := ?_
      below := hacc'.symm ▸ (by decide : (0 : U64) < creditBand)
      owed := .inr ?_
      acknowledged := .inl ?_
      chained := h.chained.concat (hval ▸ hb) ⟨?_, rfl, rfl, S.verifyBytes_sign _ _⟩ }
    · change (s'.pendingFrom _).val + (s'.owedTo _).val = lives.1 + bytes.val
      rw [hacc', ho, hs]
      change 0 + _ = _
      omega
    · change Signs (s'.owedTo _).val
      rw [ho, hs, Signs]
      exact (Fin.le_def.mp hle).trans (Nat.le_add_left _ _)
    · change s.acknowledged + _ = (s'.owedTo _).val
      rw [ho, hs, hack, hval]
    · change ((s.consumer.owedTo _).satAdd acc).val = s.acknowledged + _
      rw [hs, hack, hval]

/-! ## Runs -/

theorem livesOf_concat (events : List Event) (e : Event) :
    livesOf (events ++ [e]) = addTo (livesOf events) e :=
  foldl_concat _ _ _ _

theorem Sound.step {e : Event} (h : Sound identity server lives s)
    (hone : OneLife (addTo lives e)) :
    Raises identity s e ∧ Sound identity server (addTo lives e) (s.step identity server e) := by
  cases e with
  | fetch bytes ts => exact ⟨trivial, h.fetch hone⟩
  | restart => exact ⟨trivial, h.restart⟩
  | deliver => exact h.deliver

variable (identity server) in
theorem sound_run {events : List Event} (hone : OneLife (livesOf events)) :
    EachStep (step identity server) (start identity server) (Raises identity) events
      ∧ Sound identity server (livesOf events)
        (run (step identity server) (start identity server) events) := by
  induction events using reverseRecOn with
  | nil => exact ⟨eachStep_nil, sound_start identity server⟩
  | append_singleton events e ih =>
    rw [livesOf_concat] at hone ⊢
    obtain ⟨hr, hs⟩ := ih hone.of_addTo
    obtain ⟨hra, hst⟩ := hs.step hone
    rw [eachStep_concat, run_concat]
    exact ⟨⟨hr, hra⟩, hst⟩

/-- **As long as the consumer signs in one of its lives only, every cheque that arrives raises the
provider's record by exactly what it newly acknowledges**, and once all have arrived the record, and
all that the provider has earned, is all that was acknowledged. -/
theorem earnings_raised (identity server : S.Secret) (events : List Event)
    (hone : OneLife (livesOf events)) :
    EachStep (Earnings.step identity server) (start identity server) (Raises identity) events
      ∧ ((run (Earnings.step identity server) (start identity server) events).onTheWay = [] →
        (run (Earnings.step identity server) (start identity server) events).recorded identity
            = (run (Earnings.step identity server) (start identity server) events).acknowledged
          ∧ ∃ earned : U64, (ChequeService.totalEarned.exec
              (run (Earnings.step identity server) (start identity server) events).provider).1
                = .ok earned
            ∧ earned.val = (run (Earnings.step identity server) (start identity server)
                events).acknowledged) := by
  obtain ⟨hraises, hsound⟩ := sound_run identity server hone
  refine ⟨hraises, fun hempty => ?_⟩
  have hchained := hsound.chained
  rw [hempty] at hchained
  exact ⟨hchained, _, exec_totalEarned hsound.book hsound.worth.symm, hchained⟩

/-! ## A restart -/

/-- The keys of the consumer and of the provider. -/
def consumerKey : SigScheme.transparent.Secret := (1 : B32)

def providerKey : SigScheme.transparent.Secret := (2 : B32)

/-- A consumer that signs twice, restarts, and meters too little to sign again. -/
def signsOnce : List Event :=
  [.fetch creditBand 1, .deliver, .fetch creditBand 2, .deliver, .restart, .fetch 1000 3]

/-- A consumer that signs, restarts, and signs again. -/
def signsTwice : List Event :=
  [.fetch creditBand 1, .deliver, .restart, .fetch creditBand 2, .deliver]

/-- One life that signs. -/
theorem earnings_raised_signsOnce :
    EachStep (Earnings.step consumerKey providerKey) (start consumerKey providerKey)
      (Raises consumerKey) signsOnce :=
  (earnings_raised consumerKey providerKey signsOnce (by decide +kernel)).1

/-- Where the two lives of the consumer lead. -/
def twoLives :=
  run (Earnings.step consumerKey providerKey) (start consumerKey providerKey) signsTwice

/-- **The cheque after a restart is refused**: the provider has on record half of what was
acknowledged. -/
theorem cheque_after_restart_refused :
    ¬ EachStep (Earnings.step consumerKey providerKey) (start consumerKey providerKey)
        (Raises consumerKey) signsTwice
      ∧ twoLives.onTheWay = [] ∧ twoLives.recorded consumerKey = 4194304
      ∧ twoLives.acknowledged = 8388608 := by
  decide +kernel

end Earnings

end Zephcraft.Noded
