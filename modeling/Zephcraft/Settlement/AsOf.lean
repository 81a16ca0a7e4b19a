import Zephcraft.Settlement.Overflow
import Zephcraft.Token.PaidTotal

/-!
# Settlement/AsOf — reading an epoch's inputs again

What an account contributes to an epoch is the latest of its verified reports dated up to the epoch,
its paid figure capped at what the ledger has seen it pay. Both chains go on growing.
-/

namespace Zephcraft.Settlement

open Zephcraft.Core Token List Option Board Ledger

namespace Board

/-! ## Growing chains -/

/-- Every proof that the payloads refer to can be fetched. -/
def Fetchable (board : Board) (payloads : List Bytes) : Prop :=
  ∀ payload ∈ payloads, ∀ report ∈ board.decodeReport payload,
    (board.resolve report.proof).isSome = true
deriving Decidable

/-- Every proof of the payloads sums to a `u64`. -/
def AllFit (board : Board) (S : SigScheme) (account : B32) (payloads : List Bytes) : Prop :=
  ∀ p ∈ board.resolved payloads, ProofFits S account p.2
deriving Decidable

section Append

variable {board : Board} {S : SigScheme} {account : B32} {l : List Bytes}

theorem resolved_append (h : board.Fetchable l) (l' : List Bytes) :
    board.resolved (l ++ l') = board.resolved l ++ board.resolved l' := by
  induction l with
  | nil => rfl
  | cons payload l ih =>
    have ih := ih fun q hq => h q (.tail _ hq)
    rw [cons_append, resolved, resolved]
    cases hr : board.decodeReport payload with
    | none => exact ih
    | some report =>
      have hf := h payload (.head _) report hr
      dsimp only
      cases hp : board.resolve report.proof with
      | none => simp [hp] at hf
      | some cheques =>
        cases cheques with
        | none => exact ih
        | some cheques => exact congrArg _ ih

theorem proven_append (h : board.Fetchable l) (l' : List Bytes) :
    board.proven S account (l ++ l') = board.proven S account l ++ board.proven S account l' := by
  simp [proven, resolved_append h]

theorem allFit_append (h : board.Fetchable l) (l' : List Bytes) :
    board.AllFit S account (l ++ l') ↔ board.AllFit S account l ∧ board.AllFit S account l' := by
  rw [AllFit, resolved_append h]
  exact forall_mem_append

end Append

/-- Of two reports the one dated later, the second if they are dated alike. -/
def later : Option VerifiedReport → Option VerifiedReport → Option VerifiedReport
  | none, b => b
  | some a, none => some a
  | some a, some b => if a.epoch ≤ b.epoch then some b else some a

theorem latest_concat (epoch : U64) (l : List VerifiedReport) (v : VerifiedReport) :
    latest epoch (l ++ [v]) = later (latest epoch l) (if v.epoch ≤ epoch then some v
      else none) := by
  unfold latest
  by_cases h : v.epoch ≤ epoch
  · rw [filter_append, foldl_append]
    simp only [h, decide_true, filter_cons_of_pos, filter_nil, foldl_cons, foldl_nil, if_true]
    generalize List.foldl _ none _ = b
    cases b <;> rfl
  · rw [filter_append, foldl_append]
    simp only [h, decide_false, Bool.false_eq_true, not_false_eq_true, filter_cons_of_neg,
      filter_nil, foldl_nil, if_false]
    generalize List.foldl _ none _ = b
    cases b <;> rfl

theorem later_assoc (a b c : Option VerifiedReport) :
    later (later a b) c = later a (later b c) := by
  cases a with
  | none => rfl
  | some a =>
    cases b with
    | none => rfl
    | some b =>
      cases c with
      | none => by_cases hab : a.epoch ≤ b.epoch <;> simp [later, hab]
      | some c =>
        by_cases hab : a.epoch ≤ b.epoch <;> by_cases hbc : b.epoch ≤ c.epoch
        · simp [later, hab, hbc, hab.trans hbc]
        · simp [later, hab, hbc]
        · simp [later, hab, hbc]
        · have hac : ¬ a.epoch ≤ c.epoch := fun h => hab (h.trans (le_of_not_ge hbc))
          simp [later, hab, hbc, hac]

theorem latest_append (epoch : U64) (l l' : List VerifiedReport) :
    latest epoch (l ++ l') = later (latest epoch l) (latest epoch l') := by
  induction l' using reverseRecOn with
  | nil =>
    rw [append_nil]
    cases latest epoch l <;> rfl
  | append_singleton l' v ih =>
    rw [← append_assoc, latest_concat, latest_concat, ih, later_assoc]

end Board

/-! ## Two views of one account -/

/-- What every node has alike: the signature scheme, the decoders and the objects proofs refer
to. -/
structure Reader where
  scheme : SigScheme
  decodeReport : Bytes → Option SettleReport
  decodeCheques : Bytes → Option (List ServingCheque)
  fetch : B32 → Option Bytes

/-- What a node sees of the committed settlement and ledger chains, and how far it has scanned
them. -/
structure View where
  sequences : BTreeMap B32 (List Bytes)
  ledger : Ledger
  caches : BTreeMap B32 ReportCache
  paidScan : Ledger.PaidScan

namespace View

def board (r : Reader) (v : View) : Board where
  decodeReport := r.decodeReport
  decodeCheques := r.decodeCheques
  fetch := r.fetch
  sequences := v.sequences
  paidTotal account := (v.ledger.paidTotal v.paidScan account).2

/-- What the node reads of an account as of an epoch. -/
def read (r : Reader) (v : View) (account : B32) (epoch : U64) :
    Except Panic (Option (U64 × List ServingCheque)) :=
  Prod.snd <$> (v.board r).cumulativesOf r.scheme v.caches account epoch

/-- An account's settlement chain, empty if it has none. -/
def reports (v : View) (account : B32) : List Bytes := v.sequences[account]?.getD []

/-- How much of an account's settlement chain has been scanned. -/
def scanned (v : View) (account : B32) : ℕ := (v.caches.getD account {}).nextNonce

/-- The scans so far are scans of what the node sees. -/
structure Sound (r : Reader) (account : B32) (v : View) : Prop where
  verified : (v.caches.getD account {}).verified
    = (v.board r).proven r.scheme account ((v.reports account).take (v.scanned account))
  fits : (v.board r).AllFit r.scheme account ((v.reports account).take (v.scanned account))
  paid : Ledger.ScanOf v.ledger v.paidScan

structure Extends (account : B32) (v v' : View) : Prop where
  reports : v.reports account <+: v'.reports account
  pays : v.ledger.chain account <+: v'.ledger.chain account
  decode : v'.ledger.decode = v.ledger.decode

variable {r : Reader} {v v' : View} {account : B32} {epoch : U64}

theorem standing_eq (hs : v.Sound r account) (hf : (v.board r).Fetchable (v.reports account)) :
    (v.board r).standing r.scheme v.caches epoch account
      = (latest epoch ((v.board r).proven r.scheme account (v.reports account))).map fun a =>
          (min a.paidCumulative ((v.board r).paidTotal account), a.cheques) := by
  have hsp := take_append_drop (v.scanned account) (v.reports account)
  have ht : (v.board r).Fetchable ((v.reports account).take (v.scanned account)) :=
    fun q hq => hf q (mem_of_mem_take hq)
  have hp : (v.caches.getD account {}).verified
      ++ (v.board r).proven r.scheme account ((v.board r).unread v.caches account)
      = (v.board r).proven r.scheme account (v.reports account) := by
    rw [hs.verified]
    refine (proven_append ht _).symm.trans ?_
    exact congrArg _ hsp
  rw [standing, hp]
  cases hseq : (v.board r).sequences[account]? with
  | some payloads => rfl
  | none =>
    have hnil : v.reports account = [] := by
      rw [reports, show v.sequences[account]? = none from hseq]; rfl
    rw [hnil]
    rfl

/-- **A reading, told by the chain alone**: how far the node has scanned does not matter. -/
theorem read_eq_ok_iff (hs : v.Sound r account) (hf : (v.board r).Fetchable (v.reports account))
    {found : Option (U64 × List ServingCheque)} :
    v.read r account epoch = .ok found ↔ (v.board r).AllFit r.scheme account (v.reports account)
        ∧ found = (latest epoch ((v.board r).proven r.scheme account (v.reports account))).map
            fun a => (min a.paidCumulative ((v.board r).paidTotal account), a.cheques) := by
  have ht : (v.board r).Fetchable ((v.reports account).take (v.scanned account)) :=
    fun q hq => hf q (mem_of_mem_take hq)
  have hfit : (v.board r).ReportsFit r.scheme v.caches account
      ↔ (v.board r).AllFit r.scheme account (v.reports account) := by
    rw [← take_append_drop (v.scanned account) (v.reports account), allFit_append ht,
      and_iff_right hs.fits]
    rfl
  rw [← standing_eq hs hf, ← hfit,
    ← (v.board r).cumulativesOf_eq_ok r.scheme v.caches account epoch, read]
  constructor
  · intro h
    obtain ⟨⟨caches, found'⟩, hr, h⟩ :=
      Except.bind_eq_ok.mp (by simpa only [map_eq_pure_bind] using h)
    obtain rfl : found' = found := Except.ok.inj h
    exact ⟨⟨_, hr⟩, (cumulativesOf_spec hr).1⟩
  · rintro ⟨⟨⟨caches, found'⟩, hr⟩, rfl⟩
    rw [hr, ← (cumulativesOf_spec hr).1]
    rfl

/-- What was committed to the account's settlement chain since. -/
def added (account : B32) (v v' : View) : List Bytes :=
  (v'.reports account).drop (v.reports account).length

/-- The ledger's cap does not change the figure: it was high enough, or is where it was. -/
def CapKeeps (r : Reader) (account : B32) (v v' : View) (paid : U64) : Prop :=
  paid ≤ (v.board r).paidTotal account
    ∨ (v'.board r).paidTotal account = (v.board r).paidTotal account
deriving Decidable

/-- The new report `b` does not disturb the reading of the old one `a`: it does not displace it and
the cap keeps the old figure, or it displaces it by the same cheques and, capped, the same
payments. -/
def Repeats (r : Reader) (account : B32) (v v' : View) :
    Option VerifiedReport → Option VerifiedReport → Prop
  | none, none => True
  | none, some _ => False
  | some a, none => v.CapKeeps r account v' a.paidCumulative
  | some a, some b =>
    if a.epoch ≤ b.epoch then
      b.cheques = a.cheques ∧ min b.paidCumulative ((v'.board r).paidTotal account)
          = min a.paidCumulative ((v.board r).paidTotal account)
    else v.CapKeeps r account v' a.paidCumulative

instance (r : Reader) (account : B32) (v v' : View) :
    (a b : Option VerifiedReport) → Decidable (v.Repeats r account v' a b)
  | none, none => isTrue trivial
  | none, some _ => isFalse id
  | some a, none => inferInstanceAs (Decidable (v.CapKeeps r account v' a.paidCumulative))
  | some a, some b => inferInstanceAs (Decidable (if a.epoch ≤ b.epoch then _ ∧ _ else _))

/-- Nothing committed since disturbs the reading: every new proof sums to a `u64`, and the latest of
the new reports dated up to the epoch leaves the one that was read in its place, or repeats it. -/
def Undisturbed (r : Reader) (account : B32) (epoch : U64) (v v' : View) : Prop :=
  (v.board r).AllFit r.scheme account (added account v v') ∧ v.Repeats r account v'
      (latest epoch ((v.board r).proven r.scheme account (v.reports account)))
      (latest epoch ((v.board r).proven r.scheme account (added account v v')))
deriving Decidable

theorem resolved_board (r : Reader) (v v' : View) (l : List Bytes) :
    (v'.board r).resolved l = (v.board r).resolved l := by
  induction l with
  | nil => rfl
  | cons payload l ih =>
    rw [resolved, resolved, ih]
    rfl

theorem paidTotal_mono (hs : v.Sound r account) (hs' : v'.Sound r account)
    (he : Extends account v v') :
    (v.board r).paidTotal account ≤ (v'.board r).paidTotal account := by
  have h := (paidTotal_spec hs.paid account).1
  have h' := (paidTotal_spec hs'.paid account).1
  obtain ⟨dq, hdq⟩ := he.pays
  have hle : v.ledger.committedPays account ≤ v'.ledger.committedPays account := by
    rw [committedPays, committedPays, ← hdq, he.decode, map_append, sum_append]
    exact Nat.le_add_right _ _
  change (v.ledger.paidTotal v.paidScan account).2.val
    ≤ (v'.ledger.paidTotal v'.paidScan account).2.val
  omega

theorem min_eq_min_iff {a c c' : U64} (h : c ≤ c') : min a c' = min a c ↔ a ≤ c ∨ c' = c := by
  rw [Fin.ext_iff, Fin.ext_iff, Fin.coe_min, Fin.coe_min, Fin.le_def]
  rw [Fin.le_def] at h
  omega

end View

open View

/-- **An account's inputs to an epoch are read again as they were exactly when nothing committed
since disturbs the reading**, for any two sound views of its chains of which one extends the other,
all proofs being fetchable. -/
theorem reading_stable_iff_undisturbed {r : Reader} {account : B32} {epoch : U64} {v v' : View}
    (hs : v.Sound r account) (hs' : v'.Sound r account) (he : Extends account v v')
    (hf : (v'.board r).Fetchable (v'.reports account)) {found : Option (U64 × List ServingCheque)}
    (hread : v.read r account epoch = .ok found) :
    v'.read r account epoch = .ok found ↔ Undisturbed r account epoch v v' := by
  obtain ⟨added, hadded⟩ := he.reports
  have hcap := paidTotal_mono hs hs' he
  have hfetch : (v.board r).Fetchable (v.reports account) := fun q hq =>
    hf q (hadded ▸ mem_append_left _ hq)
  have hnew : View.added account v v' = added := by
    rw [View.added, ← hadded, drop_left]
  have hproven : (v'.board r).proven r.scheme account (v'.reports account)
      = (v.board r).proven r.scheme account (v.reports account)
        ++ (v.board r).proven r.scheme account added := by
    rw [← proven_append hfetch, hadded, proven, proven, resolved_board r v v']
  have hfits : (v'.board r).AllFit r.scheme account (v'.reports account)
      ↔ (v.board r).AllFit r.scheme account (v.reports account)
        ∧ (v.board r).AllFit r.scheme account added := by
    rw [← allFit_append hfetch, hadded, Board.AllFit, Board.AllFit, resolved_board r v v']
  obtain ⟨hfit, rfl⟩ := (read_eq_ok_iff hs hfetch).mp hread
  rw [read_eq_ok_iff hs' hf, hfits, and_iff_right hfit, hproven, latest_append, Undisturbed, hnew]
  refine and_congr_right fun _ => ?_
  cases latest epoch ((v.board r).proven r.scheme account (v.reports account)) with
  | none =>
    cases latest epoch ((v.board r).proven r.scheme account added) with
    | none => simp [later, Repeats]
    | some b => simp [later, Repeats]
  | some a =>
    cases latest epoch ((v.board r).proven r.scheme account added) with
    | none =>
      simp only [later, Repeats, map_some, Option.some.injEq, Prod.mk.injEq, and_true]
      rw [eq_comm, min_eq_min_iff hcap]
      rfl
    | some b =>
      by_cases hab : a.epoch ≤ b.epoch
      · simp only [later, Repeats, if_pos hab, map_some, Option.some.injEq, Prod.mk.injEq]
        rw [and_comm, eq_comm, eq_comm (a := a.paidCumulative ⊓ _)]
      · simp only [later, Repeats, if_neg hab, map_some, Option.some.injEq, Prod.mk.injEq, and_true]
        rw [eq_comm, min_eq_min_iff hcap]
        rfl

theorem View.sound_fresh (r : Reader) (account : B32)
    (sequences : BTreeMap B32 (List Bytes)) (ledger : Ledger) :
    (View.mk sequences ledger ∅ ∅).Sound r account :=
  ⟨by simp [scanned, proven, resolved], by simp [scanned, Board.AllFit, resolved],
    fun a entry h => by simp at h⟩

/-- Reports of two bytes, an epoch and a paid figure, that show nothing served. -/
def plainReports : Reader where
  scheme := .transparent
  decodeReport
    | [epoch, paid] => some ⟨Word.truncate epoch.val, Word.truncate paid.val, 0, .inline []⟩
    | _ => none
  decodeCheques _ := none
  fetch _ := none

/-- A first view of account `7`'s reports and payments. -/
def plainView (reports : List Bytes) (pays : List Byte) : View where
  sequences := (∅ : BTreeMap B32 (List Bytes)).insert 7 reports
  ledger :=
    { decode := fun payload => payload.head?.map fun b => .pay (Word.truncate b.val)
      sequences := (∅ : BTreeMap B32 (List Bytes)).insert 7 (pays.map fun b => [b])
      rewardShare := fun _ _ => 0 }
  caches := ∅
  paidScan := ∅

theorem extends_plainView {reports reports' : List Bytes} {pays pays' : List Byte}
    (hr : reports <+: reports') (hp : pays <+: pays') :
    Extends 7 (plainView reports pays) (plainView reports' pays') := by
  refine ⟨?_, ?_, rfl⟩
  · simpa [plainView, View.reports] using hr
  · simpa [plainView, Ledger.chain] using hp.map fun b => [b]

/-- A report of the next epoch and a payment come in; epoch 5 reads as before. -/
theorem reading_stable_nextEpoch :
    (plainView [[5, 10]] [10]).read plainReports 7 5 = .ok (some (10, []))
      ∧ (plainView [[5, 10], [6, 25]] [10, 15]).read plainReports 7 5 = .ok (some (10, [])) := by
  have hread : (plainView [[5, 10]] [10]).read plainReports 7 5 = .ok (some (10, [])) := by
    decide +kernel
  have hext : Extends 7 (plainView [[5, 10]] [10]) (plainView [[5, 10], [6, 25]] [10, 15]) :=
    extends_plainView (by decide) (by decide)
  exact ⟨hread,
    (reading_stable_iff_undisturbed (View.sound_fresh _ 7 _ _) (View.sound_fresh _ 7 _ _)
    hext (by decide +kernel) hread).mpr (by decide +kernel)⟩

/-- A report committed later and dated back, or a payment that lifts the cap, changes what epoch 5
reads. -/
theorem reading_changes_later :
    Extends 7 (plainView [[5, 10]] [10]) (plainView [[5, 10], [5, 30]] [10, 20])
      ∧ (plainView [[5, 10]] [10]).read plainReports 7 5 = .ok (some (10, []))
      ∧ (plainView [[5, 10], [5, 30]] [10, 20]).read plainReports 7 5 = .ok (some (30, []))
      ∧ Extends 7 (plainView [[5, 40]] [10]) (plainView [[5, 40]] [10, 20])
      ∧ (plainView [[5, 40]] [10]).read plainReports 7 5 = .ok (some (10, []))
      ∧ (plainView [[5, 40]] [10, 20]).read plainReports 7 5 = .ok (some (30, [])) :=
  ⟨extends_plainView (by decide) (by decide), by decide +kernel, by decide +kernel,
    extends_plainView (by decide) (by decide), by decide +kernel, by decide +kernel⟩

end Zephcraft.Settlement
