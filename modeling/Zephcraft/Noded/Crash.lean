import Zephcraft.Foundations.Blake3
import Zephcraft.Foundations.Run
import Zephcraft.Noded.SequenceStore

/-!
# Noded/Crash — signing calls in parallel, and restarts

`signWriteLocally` takes four steps that other calls can come between: it enters the hash into the
signed-set under a lock, and takes a snapshot there; it writes the snapshot to disk; it returns the
signature; and at any point the node may crash and come back with what is on disk.
-/

namespace Zephcraft.Noded

open Zephcraft.Core Com List BTreeMap Run

/-- A call under way: what it signs, and the snapshot it has still to write. -/
structure Call where
  chain : Chain
  write : SequencedWrite
  pending : Option SignedSet

/-- A node's store, its calls under way, and the signatures it has returned. -/
structure Process (S : SigScheme) where
  store : SequenceStore S
  calls : ℕ → Option Call
  released : List (Chain × SequencedWrite)

/-- The steps of a call, and the crash. -/
inductive Action where
  | start (id : ℕ) (quorum : Option Quorum) (chain : Chain) (write : SequencedWrite)
  | persist (id : ℕ)
  | reply (id : ℕ)
  | crash

namespace Process

variable {S : SigScheme}

def new (identity : S.Secret) : Process S := ⟨.new identity, fun _ => none, []⟩

/-- The step. An action of a call that is not there, or not there yet, does nothing. -/
def step (blake3 : Bytes → B32) (p : Process S) : Action → Process S
  | .start i quorum chain w =>
    match p.calls i, quorum with
    | none, some q =>
      if p.store.mayOrder q w then
        match p.store.signed.enter (signedKey chain w) (blake3 w.signingBytes) with
        | none => p
        | some signed =>
          { p with
            store := { p.store with signed := signed }
            calls := Function.update p.calls i (some ⟨chain, w, some signed⟩) }
      else p
    | _, _ => p
  | .persist i =>
    match p.calls i with
    | some ⟨chain, w, some snapshot⟩ =>
      { p with
        store := { p.store with signedFile := snapshot }
        calls := Function.update p.calls i (some ⟨chain, w, none⟩) }
    | _ => p
  | .reply i =>
    match p.calls i with
    | some ⟨chain, w, none⟩ =>
      { p with
        calls := Function.update p.calls i none
        released := (chain, w) :: p.released }
    | _ => p
  | .crash =>
    { p with
      store := { p.store with signed := p.store.signedFile }
      calls := fun _ => none }

/-- **A call that nothing comes between is `signWriteLocally`.** -/
theorem uninterrupted_call (blake3 : Bytes → B32) (p : Process S) {i : ℕ} (hi : p.calls i = none)
    (quorum : Option Quorum) (chain : Chain) (w : SequencedWrite) :
    run (step blake3) p [.start i quorum chain w, .persist i, .reply i] = { p with
          store := (p.store.signWriteLocally blake3 quorum chain w).1
          released := if (p.store.signWriteLocally blake3 quorum chain w).2.isSome then
              (chain, w) :: p.released
            else p.released } := by
  have hid : ∀ a, a = Action.persist i ∨ a = Action.reply i → step blake3 p a = p := by
    rintro a (rfl | rfl) <;> simp [step, hi]
  rcases p.store.signWriteLocally_cases blake3 quorum chain w with
    hr | ⟨q, signed, rfl, hmay, he, hsi⟩
  · have hs : step blake3 p (.start i quorum chain w) = p := by
      cases quorum with
      | none => simp [step, hi]
      | some q =>
        by_cases hmay : p.store.mayOrder q w
        · cases he : p.store.signed.enter (signedKey chain w) (blake3 w.signingBytes) with
          | none => simp [step, hi, hmay, he]
          | some signed => simp [SequenceStore.signWriteLocally, hmay, he] at hr
        · simp [step, hi, hmay]
    simp [run, hs, hid, hr]
  · simp [run, step, hi, hmay, he, hsi]

/-! ## What a step can do -/

/-- **The effect of an action**, where it has one. -/
inductive Effect (blake3 : Bytes → B32) (p : Process S) : Action → Process S → Prop where
  | idle (a : Action) : Effect blake3 p a p
  | start {i : ℕ} {quorum : Option Quorum} {chain : Chain} {w : SequencedWrite} {signed : SignedSet}
      (henter : p.store.signed.enter (signedKey chain w) (blake3 w.signingBytes) = some signed) :
      Effect blake3 p (.start i quorum chain w)
        { p with
          store := { p.store with signed := signed }
          calls := Function.update p.calls i (some ⟨chain, w, some signed⟩) }
  | persist {i : ℕ} {chain : Chain} {w : SequencedWrite} {snapshot : SignedSet}
      (hi : p.calls i = some ⟨chain, w, some snapshot⟩) :
      Effect blake3 p (.persist i)
        { p with
          store := { p.store with signedFile := snapshot }
          calls := Function.update p.calls i (some ⟨chain, w, none⟩) }
  | reply {i : ℕ} {chain : Chain} {w : SequencedWrite} (hi : p.calls i = some ⟨chain, w, none⟩) :
      Effect blake3 p (.reply i)
        { p with
          calls := Function.update p.calls i none
          released := (chain, w) :: p.released }
  | crash :
      Effect blake3 p .crash
        { p with
          store := { p.store with signed := p.store.signedFile }
          calls := fun _ => none }

theorem effect_step (blake3 : Bytes → B32) (p : Process S) (a : Action) :
    Effect blake3 p a (p.step blake3 a) := by
  cases a <;> unfold step <;> dsimp only
  case start =>
    split
    · split
      · split
        · exact .idle _
        · rename_i he
          exact .start he
      · exact .idle _
    · exact .idle _
  case persist =>
    split
    · rename_i hi
      exact .persist hi
    · exact .idle _
  case reply =>
    split
    · rename_i hi
      exact .reply hi
    · exact .idle _
  case crash => exact .crash

/-! ## What a landing snapshot must not do -/

/-- **The condition on a step**: a snapshot that lands drops nothing that is on disk. -/
def KeepsFile (p : Process S) : Action → Prop
  | .persist i => ∀ c ∈ p.calls i, ∀ snapshot ∈ c.pending, p.store.signedFile.Within snapshot
  | _ => True

instance (p : Process S) : ∀ a, Decidable (p.KeepsFile a)
  | .persist i => inferInstanceAs (Decidable (∀ c ∈ p.calls i, ∀ snapshot ∈ c.pending, _))
  | .start .. | .reply _ | .crash => isTrue trivial

/-- **No equivocation**: signatures returned under one key are on one write. -/
def NoEquivocation (p : Process S) : Prop :=
  ∀ r ∈ p.released, ∀ r' ∈ p.released, signedKey r.1 r.2 = signedKey r'.1 r'.2 → r.2 = r'.2

/-- **The invariant**: memory covers the disk and every snapshot under way; a call's own entry is in
its snapshot and, once that has landed, on disk — where the entries of all returned signatures
are. -/
structure Durable (blake3 : Bytes → B32) (p : Process S) : Prop where
  file_within : p.store.signedFile.Within p.store.signed
  pending_within : ∀ i c, p.calls i = some c → ∀ snapshot, c.pending = some snapshot →
    snapshot.Within p.store.signed
      ∧ snapshot[signedKey c.chain c.write]? = some (blake3 c.write.signingBytes)
  landed : ∀ i c, p.calls i = some c → c.pending = none →
    p.store.signedFile[signedKey c.chain c.write]? = some (blake3 c.write.signingBytes)
  released : ∀ r ∈ p.released,
    p.store.signedFile[signedKey r.1 r.2]? = some (blake3 r.2.signingBytes)

section

variable {blake3 : Bytes → B32} {p : Process S}

theorem Durable.noEquivocation (h : Durable blake3 p) (hf : ∀ r ∈ p.released, ∀ r' ∈ p.released,
      blake3 r.2.signingBytes = blake3 r'.2.signingBytes → r.2 = r'.2) : p.NoEquivocation := by
  intro r hr r' hr' hkey
  have he := h.released r hr
  rw [hkey, h.released r' hr'] at he
  exact hf r hr r' hr' (Option.some.inj he).symm

theorem of_update {calls : ℕ → Option Call} {i j : ℕ} {v : Option Call} {c : Call}
    (h : Function.update calls i v j = some c) : v = some c ∨ calls j = some c := by
  by_cases hj : j = i
  · subst hj
    rw [Function.update_self] at h
    exact .inl h
  · rw [Function.update_of_ne hj] at h
    exact .inr h

theorem Durable.step (h : Durable blake3 p) {a : Action} (hke : p.KeepsFile a) :
    Durable blake3 (p.step blake3 a) := by
  have hef := effect_step blake3 p a
  generalize p.step blake3 a = p' at hef
  cases hef with
  | idle => exact h
  | start hen =>
    obtain ⟨rfl, hf⟩ := SignedSet.enter_eq_some.mp hen
    have hg := within_insert hf
    refine ⟨h.file_within.trans hg, fun j c hc snapshot hs => ?_, fun j c hc hn => ?_, h.released⟩
    · rcases of_update hc with heq | hc
      · cases heq
        cases hs
        exact ⟨.refl _, getElem?_insert_self ..⟩
      · obtain ⟨hw, he⟩ := h.pending_within j c hc snapshot hs
        exact ⟨hw.trans hg, he⟩
    · rcases of_update hc with heq | hc
      · cases heq
        simp at hn
      · exact h.landed j c hc hn
  | persist hi =>
    have hk := within_iff.mp (hke _ hi _ rfl)
    obtain ⟨hw, he⟩ := h.pending_within _ _ hi _ rfl
    refine ⟨hw, fun j c hc snapshot hs => ?_, fun j c hc hn => ?_, fun r hr =>
      hk _ _ (h.released r hr)⟩
    · rcases of_update hc with heq | hc
      · cases heq
        simp at hs
      · exact h.pending_within j c hc snapshot hs
    · rcases of_update hc with heq | hc
      · cases heq
        exact he
      · exact hk _ _ (h.landed j c hc hn)
  | reply hi =>
    refine ⟨h.file_within, fun j c hc =>
      h.pending_within j c ((of_update hc).resolve_left (by simp)),
      fun j c hc => h.landed j c ((of_update hc).resolve_left (by simp)), fun r hr => ?_⟩
    rcases mem_cons.mp hr with rfl | hr
    exacts [h.landed _ _ hi rfl, h.released r hr]
  | crash => exact ⟨.refl _, by simp, by simp, h.released⟩

/-- The writes the calls of a run are about. -/
def started (actions : List Action) : List SequencedWrite :=
  actions.filterMap fun
    | .start _ _ _ w => some w
    | _ => none

/-- Nothing but the given writes is being signed or has been. -/
structure About (writes : List SequencedWrite) (p : Process S) : Prop where
  calls : ∀ i c, p.calls i = some c → c.write ∈ writes
  released : ∀ r ∈ p.released, r.2 ∈ writes

theorem About.step {writes : List SequencedWrite} (h : About writes p) {a : Action}
    (ha : ∀ w ∈ started [a], w ∈ writes) : About writes (p.step blake3 a) := by
  have he := effect_step blake3 p a
  generalize p.step blake3 a = p' at he
  cases he with
  | idle => exact h
  | start hen =>
    refine ⟨fun j c hc => ?_, h.released⟩
    rcases of_update hc with heq | hc
    · cases heq
      exact ha _ (by simp [started])
    · exact h.calls j c hc
  | persist hi =>
    refine ⟨fun j c hc => ?_, h.released⟩
    rcases of_update hc with heq | hc
    · cases heq
      have hw := h.calls _ _ hi
      exact hw
    · exact h.calls j c hc
  | reply hi =>
    refine ⟨fun j c hc => h.calls j c ((of_update hc).resolve_left (by simp)), fun r hr => ?_⟩
    rcases mem_cons.mp hr with rfl | hr
    exacts [h.calls _ _ hi, h.released r hr]
  | crash => exact ⟨by simp, h.released⟩

end

/-- **Crash-safe non-equivocation**: in every run of calls and crashes in which no landing snapshot
drops what is on disk, no state has two signatures on different writes out under one key. -/
theorem noEquivocation_of_keepsFile (S : SigScheme) (blake3 : Bytes → B32)
    (identity : S.Secret) (actions : List Action)
    (hfree : ∀ w ∈ started actions, ∀ w' ∈ started actions,
      blake3 w.signingBytes = blake3 w'.signingBytes → w = w')
    (hkeeps : EachStep (step blake3) (new identity) KeepsFile actions) :
    EachState (step blake3) (new identity) NoEquivocation actions := by
  refine eachState_of_invariant
    (C := fun p a => p.KeepsFile a ∧ ∀ w ∈ started [a], w ∈ started actions)
    (I := fun p : Process S => Durable blake3 p ∧ About (started actions) p)
    ⟨⟨.refl _, by simp [new], by simp [new], by simp [new]⟩, by simp [new], by simp [new]⟩
    (fun p a h hC => ⟨h.1.step hC.1, h.2.step hC.2⟩) (fun p h => ?_) fun pre a hpre => ?_
  · exact h.1.noEquivocation fun r hr r' hr' =>
      hfree _ (h.2.released r hr) _ (h.2.released r' hr')
  · refine ⟨hkeeps pre a hpre, fun w hw => ?_⟩
    have ha : a ∈ actions := hpre.subset (mem_append_right pre (mem_singleton_self a))
    exact (List.Sublist.filterMap _ (singleton_sublist.mpr ha)).subset hw

/-! ## Two calls and a crash -/

/-- Node 1, the only member of its quorum, is asked to sign a write of account 9. -/
def sign9 (id : ℕ) (nonce : U64) (payload : Byte) : Action :=
  .start id (some (.genesis [1] 1)) (0, 7) (.author .transparent (9 : B32) nonce [payload])

/-- Two calls whose snapshots land in the order they were taken, a crash, and a call for another
write at a nonce that is taken. -/
def inOrder : List Action :=
  [sign9 0 0 1, sign9 1 1 2, .persist 0, .persist 1, .reply 1, .reply 0, .crash, sign9 2 1 3,
    .persist 2, .reply 2]

/-- The same calls, but the first snapshot lands last. -/
def outOfOrder : List Action :=
  [sign9 0 0 1, sign9 1 1 2, .persist 1, .persist 0, .reply 1, .reply 0, .crash, sign9 2 1 3,
    .persist 2, .reply 2]

theorem noEquivocation_inOrder :
    EachState (step blake3) (new (S := .transparent) (1 : B32)) NoEquivocation inOrder :=
  noEquivocation_of_keepsFile .transparent blake3 (1 : B32) inOrder (by decide +kernel)
    (by decide +kernel)

/-- **A stale snapshot lets the node sign two writes under one key.** -/
theorem outOfOrder_equivocates :
    (∀ w ∈ started outOfOrder, ∀ w' ∈ started outOfOrder,
        blake3 w.signingBytes = blake3 w'.signingBytes → w = w')
      ∧ ¬ (run (step blake3) (new (S := .transparent) (1 : B32)) outOfOrder).NoEquivocation := by
  refine ⟨by decide +kernel, ?_⟩
  unfold NoEquivocation
  decide +kernel

end Process

end Zephcraft.Noded
