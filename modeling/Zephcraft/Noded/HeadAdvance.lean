import Zephcraft.Noded.HeadTable

/-!
# Noded/HeadAdvance — the table against the registry's transition

`advanceLocal` is meant to be `RegistryState.apply` on a table. It is not: where `apply` refuses a
stale version with an error, the guarded upsert does nothing and the submission is acknowledged all
the same; a version past the range of the column is acknowledged and cannot be read back; and a name
with a NUL byte in it is an error where `apply` takes it.
-/

namespace Zephcraft.Noded

open Zephcraft.Core Com Option BTreeMap HeadRow LastWriter HeadSubmission Run

/-- The longest name a submission may have, in bytes. -/
def maxNameLen : ℕ := 32

/-- Why a submission is not acknowledged. -/
inductive AdvanceError where
  | badSignature
  | nameTooLong
  | sqlite
deriving DecidableEq

/-- The answer to a submission. -/
inductive SubmitResp where
  | submitAck
  | err (e : AdvanceError)
deriving DecidableEq

namespace HeadTable

/-- Advance the shard by a submission. The takeover merge in front of it is a step of its own. -/
def advanceLocal (S : SigScheme) (t : HeadTable) (sub : HeadSubmission) :
    Except AdvanceError HeadTable :=
  if ¬ sub.verify S then .error .badSignature
  else if maxNameLen < sub.name.length then .error .nameTooLong
  else match t.sqlUpsert sub.entry with
    | none => .error .sqlite
    | some t => .ok t

def serveSubmit (S : SigScheme) (t : HeadTable) (sub : HeadSubmission) : SubmitResp :=
  match t.advanceLocal S sub with
  | .ok _ => .submitAck
  | .error e => .err e

/-- What happens to a shard: the merge of the other replicas' states, and submissions. -/
inductive Event where
  | takeover (fetched : List (List HeadEntry))
  | advance (sub : HeadSubmission)

def step (S : SigScheme) (t : HeadTable) : Event → HeadTable
  | .takeover fetched => t.takeover S fetched
  | .advance sub =>
    match t.advanceLocal S sub with
    | .ok t => t
    | .error _ => t

/-- The table does with a submission what the registry's transition does on the table's state: it is
acknowledged exactly when it is accepted, and then the table's state is the one the transition
returns. -/
structure Refines (S : SigScheme) (t : HeadTable) (sub : HeadSubmission) : Prop where
  ok_iff : (∃ t', t.advanceLocal S sub = .ok t') ↔ ∃ s, (t.sqlState S).apply S sub = .ok s
  ack_iff : t.serveSubmit S sub = .submitAck ↔ ∃ s, (t.sqlState S).apply S sub = .ok s
  state : ∀ t' s, t.advanceLocal S sub = .ok t' → (t.sqlState S).apply S sub = .ok s
    → t'.sqlState S = s

/-- The submission can be written, read back, and is above what the table has of its key. -/
structure Advances (t : HeadTable) (sub : HeadSubmission) : Prop where
  writable : (0 : Byte) ∉ sub.name
  readable : sub.version.val < 2 ^ 63
  above : ∀ row, t[sub.key]? = some row → row.version.number < sub.version.val

variable {S : SigScheme} {t t' : HeadTable} {sub : HeadSubmission}

theorem advanceLocal_eq_ok : t.advanceLocal S sub = .ok t' ↔
    sub.verify S ∧ sub.name.length ≤ maxNameLen ∧ t.sqlUpsert sub.entry = some t' := by
  unfold advanceLocal
  by_cases hv : sub.verify S
  · by_cases hn : maxNameLen < sub.name.length
    · simp [hv, hn]
    · cases hup : t.sqlUpsert sub.entry <;> simp [hv, hn, not_lt.mp hn]
  · simp [hv]

theorem serveSubmit_eq_ack :
    t.serveSubmit S sub = .submitAck ↔ ∃ t', t.advanceLocal S sub = .ok t' := by
  unfold serveSubmit
  cases t.advanceLocal S sub <;> simp

theorem apply_eq_ok {state s : RegistryState} : state.apply S sub = .ok s ↔
    sub.verify S ∧ (∀ held, state.rows[sub.key]? = some held → held.version < sub.version)
      ∧ state.upsert sub.entry = s := by
  unfold RegistryState.apply
  by_cases hv : sub.verify S
  · cases hh : state.rows[sub.key]? with
    | none => simp [hv]
    | some held =>
      by_cases hle : sub.version ≤ held.version
      · simp [hv, hle, not_lt.mpr hle]
      · simp [hv, hle, not_le.mp hle]
  · simp [hv]

theorem Sound.step (h : Sound S t) (e : Event) : Sound S (t.step S e) := by
  cases e with
  | takeover fetched => exact h.takeover fetched
  | advance sub =>
    rw [HeadTable.step]
    split
    · rename_i t' hok
      obtain ⟨hv, -, hup⟩ := advanceLocal_eq_ok.mp hok
      exact h.sqlUpsert (e := sub.entry) hv hup
    · exact h

theorem sound_run (S : SigScheme) (events : List Event) : Sound S (run (step S) ∅ events) :=
  always (written_empty _) fun _ e h => Sound.step h e

/-! ## One submission -/

theorem refines_of_unverified (hv : ¬ sub.verify S) : Refines S t sub := by
  have ha : ∀ t', t.advanceLocal S sub ≠ .ok t' := fun t' h => hv (advanceLocal_eq_ok.mp h).1
  have hap : ∀ s, (t.sqlState S).apply S sub ≠ .ok s := fun s h => hv (apply_eq_ok.mp h).1
  refine ⟨?_, ?_, fun t' _ h => absurd h (ha t')⟩
  · exact ⟨fun ⟨t', h⟩ => absurd h (ha t'), fun ⟨s, h⟩ => absurd h (hap s)⟩
  · rw [serveSubmit_eq_ack]
    exact ⟨fun ⟨t', h⟩ => absurd h (ha t'), fun ⟨s, h⟩ => absurd h (hap s)⟩

theorem number_ofEntry {e : HeadEntry} (h : e.version.val < 2 ^ 63) :
    (ofEntry e).version.number = e.version.val := VersionColumn.number_ofLiteral_of_lt h

theorem Advances.sqlUpsert (h : Advances t sub) :
    t.sqlUpsert sub.entry = some (t.insert sub.key (.ofEntry sub.entry)) := by
  rw [HeadTable.sqlUpsert, if_neg (show (0 : Byte) ∉ sub.entry.name from h.writable)]
  congr 1
  cases hh : t[sub.key]? with
  | none => exact keep_of_none hh
  | some row =>
    refine keep_of_lt hh ?_
    rw [number_ofEntry (e := sub.entry) h.readable]
    exact h.above row hh

theorem refines_of_advances (hs : Sound S t) (hv : sub.verify S) (hn : sub.name.length ≤ maxNameLen)
    (h : Advances t sub) : Refines S t sub := by
  have ha := advanceLocal_eq_ok.mpr ⟨hv, hn, h.sqlUpsert⟩
  have hap : (t.sqlState S).apply S sub = .ok ((t.sqlState S).upsert sub.entry) := by
    refine apply_eq_ok.mpr ⟨hv, fun held hh => ?_, rfl⟩
    rw [hs.rows_sqlState] at hh
    obtain ⟨row, hrow, he⟩ := bind_eq_some_iff.mp hh
    obtain ⟨v, hr, rfl⟩ := map_eq_some_iff.mp he
    rw [Fin.lt_def, ← VersionColumn.val_of_read hr]
    exact h.above row hrow
  have hs' : Sound S (t.insert sub.key (.ofEntry sub.entry)) :=
    hs.sqlUpsert (e := sub.entry) hv h.sqlUpsert
  refine ⟨⟨fun _ => ⟨_, hap⟩, fun _ => ⟨_, ha⟩⟩, ?_, fun t' s ht' hs'' => ?_⟩
  · rw [serveSubmit_eq_ack]
    exact ⟨fun _ => ⟨_, hap⟩, fun _ => ⟨_, ha⟩⟩
  · obtain rfl := Except.ok.inj (ha.symm.trans ht')
    obtain rfl := Except.ok.inj (hap.symm.trans hs'')
    refine RegistryState.ext (Std.ExtTreeMap.ext_getElem? fun k => ?_)
    rw [hs'.rows_sqlState, RegistryState.upsert, getElem?_insert, getElem?_insert, key_entry]
    split
    · exact entry_ofEntry_of_lt h.readable
    · exact (hs.rows_sqlState k).symm

theorem advances_of_refines (hs : Sound S t) (hv : sub.verify S) (hn : sub.name.length ≤ maxNameLen)
    (h : Refines S t sub) : Advances t sub := by
  -- a name with a NUL is in no row, so the transition takes it and the statement does not
  have hw : (0 : Byte) ∉ sub.name := by
    intro hnul
    have hno : t[sub.key]? = none := by
      refine eq_none_iff_forall_ne_some.mpr fun row hrow => ?_
      obtain ⟨e, -, hkey, -, hf⟩ := hs _ row hrow
      have hsa : e.name = sub.name := congrArg Prod.snd hkey
      exact hf (hsa ▸ hnul)
    obtain ⟨t', ht'⟩ := h.ok_iff.mpr ⟨_, apply_eq_ok.mpr ⟨hv, by simp [hs.rows_sqlState, hno], rfl⟩⟩
    have hup := (advanceLocal_eq_ok.mp ht').2.2
    rw [HeadTable.sqlUpsert, if_pos (show (0 : Byte) ∈ sub.entry.name from hnul)] at hup
    simp at hup
  have hup : t.sqlUpsert sub.entry = some _ := if_neg (show (0 : Byte) ∉ sub.entry.name from hw)
  have ha := advanceLocal_eq_ok.mpr ⟨hv, hn, hup⟩
  obtain ⟨s, hap⟩ := h.ok_iff.mp ⟨_, ha⟩
  obtain ⟨-, hab, rfl⟩ := apply_eq_ok.mp hap
  -- what was acknowledged reads back
  have hr := congrArg (fun s => s.rows[sub.key]?) (h.state _ _ ha hap)
  simp only [(hs.sqlUpsert (e := sub.entry) hv hup).rows_sqlState, RegistryState.upsert,
    key_entry, getElem?_insert_self] at hr
  rcases keep_cases HeadRow.key (fun row => row.version.number) t (.ofEntry sub.entry) with
    ⟨held, hh, hle, heq⟩ | ⟨hlt, heq⟩
  · rw [heq, ← hs.rows_sqlState] at hr
    exact absurd (hab _ hr) (lt_irrefl _)
  · rw [heq] at hr
    have he : (ofEntry sub.entry).entry = some sub.entry := by
      simpa [getElem?_insert] using hr
    have hre : sub.version.val < 2 ^ 63 := by
      refine not_le.mp fun hle => ?_
      rw [entry_ofEntry_of_le (e := sub.entry) hle] at he
      simp at he
    refine ⟨hw, hre, fun row hrow => ?_⟩
    have := hlt row hrow
    rwa [number_ofEntry (e := sub.entry) hre] at this

/-- **When the table refines the registry**: after any run, a submission with a name within the cap
is handled as the transition would exactly when it does not verify, or can be written, read back,
and is above what the table has of its key. -/
theorem advance_refines_apply_iff (S : SigScheme) (events : List Event) (sub : HeadSubmission)
    (hname : sub.name.length ≤ maxNameLen) :
    Refines S (run (step S) ∅ events) sub
      ↔ (¬ sub.verify S) ∨ Advances (run (step S) ∅ events) sub := by
  have hs := sound_run S events
  by_cases hv : sub.verify S
  · exact ⟨fun h => .inr (advances_of_refines hs hv hname h),
      fun h => refines_of_advances hs hv hname (h.resolve_left (not_not.mpr hv))⟩
  · exact ⟨fun _ => .inl hv, fun _ => refines_of_unverified hv⟩

def appHead (cid : B32) (version : U64) : HeadSubmission :=
  .sign .transparent (5 : B32) (ascii "app") cid version

/-- A second head above the first is handled as the transition would. -/
theorem advance_refines_apply_iff_second :
    Refines .transparent (run (step .transparent) ∅ [.advance (appHead 100 1)])
      (appHead 200 2) := by
  have hheld : (run (step .transparent) ∅ [.advance (appHead 100 1)])[(appHead 200 2).key]?
      = some (.ofEntry (appHead 100 1).entry) := by
    decide +kernel
  refine (advance_refines_apply_iff .transparent [.advance (appHead 100 1)] (appHead 200 2)
    (by decide)).mpr (.inr ⟨by decide, by decide, fun row hrow => ?_⟩)
  obtain rfl := Option.some.inj (hheld.symm.trans hrow)
  decide

/-- What the transition says to a submission. -/
def refusal (t : HeadTable) (sub : HeadSubmission) : Option Rejection :=
  match (t.sqlState .transparent).apply .transparent sub with
  | .ok _ => none
  | .error e => some e

/-- What the table shows of a submission's name once it has been handled. -/
def shownAfter (t : HeadTable) (sub : HeadSubmission) : Option HeadEntry :=
  ((t.step .transparent (.advance sub)).sqlState .transparent).resolve sub.owner sub.name

/-- **Three submissions the table and the transition disagree on.** Version 1 after version 2 is
acknowledged and dropped, where the transition refuses it. A version past the range of an `i64` is
acknowledged and does not read back. A name with a NUL in it is an error, where the transition takes
it. -/
theorem table_and_transition_apart :
    let t := run (step .transparent) ∅ [.advance (appHead 100 2)]
    let nul := HeadSubmission.sign .transparent (5 : B32) [97, 0] 100 1
    (t.serveSubmit .transparent (appHead 200 1) = .submitAck
        ∧ refusal t (appHead 200 1) = some .staleVersion
        ∧ shownAfter t (appHead 200 1) = some (appHead 100 2).entry)
      ∧ (t.serveSubmit .transparent (appHead 200 (2 ^ 63)) = .submitAck
        ∧ refusal t (appHead 200 (2 ^ 63)) = none
        ∧ shownAfter t (appHead 200 (2 ^ 63)) = none)
      ∧ (t.serveSubmit .transparent nul = .err .sqlite ∧ refusal t nul = none) := by
  decide +kernel

end HeadTable

end Zephcraft.Noded
