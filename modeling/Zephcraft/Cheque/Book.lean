import Zephcraft.Settlement.Overflow

/-!
# Cheque/Book — the two sides of a serving cheque

The consumer's `ChequeIssuer` keeps a running total per provider and signs it; the provider's
`ChequeBook` keeps the latest cheque of each consumer.
-/

namespace Zephcraft.Cheque

open Zephcraft.Core Settlement List Std.ExtTreeMap BTreeMap

/-! ## The consumer's side -/

/-- The bytes acknowledged to each provider so far. -/
structure ChequeIssuer where
  issued : BTreeMap B32 U64

namespace ChequeIssuer

def new : ChequeIssuer := ⟨∅⟩

/-- Acknowledge `additional` more bytes of `server`, and sign the new total. -/
def issue (S : SigScheme) (identity : S.Secret) (server : B32) (additional timestamp : U64)
    (issuer : ChequeIssuer) : ChequeIssuer × ServingCheque :=
  let cumulative := (issuer.issued.getD server 0).satAdd additional
  (⟨issuer.issued.insert server cumulative⟩, .sign S identity server cumulative timestamp)

/-- The total acknowledged to `server`. -/
def owedTo (issuer : ChequeIssuer) (server : B32) : U64 := issuer.issued.getD server 0

end ChequeIssuer

/-! ## The provider's side -/

/-- The latest valid cheque of each consumer. -/
structure ChequeBook where
  me : B32
  received : BTreeMap B32 ServingCheque

namespace ChequeBook

def new (me : B32) : ChequeBook := ⟨me, ∅⟩

/-- Is there a cheque of `c`'s consumer that `c` does not supersede? -/
def stale (book : ChequeBook) (c : ServingCheque) : Bool :=
  match book.received[c.consumer]? with
  | some prev => c.cumulativeBytes ≤ prev.cumulativeBytes
  | none => false

/-- Record a cheque that names this node, verifies, and is strictly higher than the consumer's last;
returns whether it was accepted. -/
def record (S : SigScheme) (book : ChequeBook) (c : ServingCheque) : ChequeBook × Bool :=
  if c.server ≠ book.me ∨ ¬ c.verify S then (book, false)
  else if book.stale c then (book, false)
  else ({ book with received := book.received.insert c.consumer c }, true)

def recordAll (S : SigScheme) (book : ChequeBook) (cheques : List ServingCheque) : ChequeBook :=
  cheques.foldl (fun book c => (book.record S c).1) book

/-- The bytes the book shows to have been served. -/
def totalEarned (book : ChequeBook) : Except Panic U64 :=
  Word.sumOrPanic (book.received.toList.map fun e => e.2.cumulativeBytes)

def latestFrom (book : ChequeBook) (consumer : B32) : Option ServingCheque :=
  book.received[consumer]?

def cheques (book : ChequeBook) : List ServingCheque := book.received.toList.map Prod.snd

/-! ## What a book holds -/

variable {S : SigScheme}

/-- The totals of a book, consumer by consumer, are those of the cheques it was given. -/
structure Holds (S : SigScheme) (book : ChequeBook) (me : B32)
    (given : List ServingCheque) : Prop where
  named : book.me = me
  tally : ∀ k : B32, book.received[k]?.map ServingCheque.cumulativeBytes
    = ((given.filter (backs S me)).foldl raiseConsumer ∅)[k]?

theorem holds_new (S : SigScheme) (me : B32) : (new me).Holds S me [] :=
  ⟨rfl, fun _ => by simp [new]⟩

variable {book : ChequeBook} {me : B32} {given : List ServingCheque}

/-- **One cheque.** A cheque the book refuses — of another server, forged or stale — raises no
total, and one it takes raises its consumer's to its own. -/
theorem Holds.record (h : book.Holds S me given) (c : ServingCheque) :
    (book.record S c).1.Holds S me (given ++ [c]) := by
  have hb : (c.server ≠ book.me ∨ ¬ c.verify S) ↔ ¬ backs S me c := by
    rw [h.named, backs, Bool.and_eq_true, decide_eq_true_eq, not_and_or]
  unfold ChequeBook.record
  by_cases hc : backs S me c
  · rw [if_neg (mt hb.mp (not_not.mpr hc))]
    have hf : (given ++ [c]).filter (backs S me) = given.filter (backs S me) ++ [c] := by
      simp [hc]
    refine ⟨by split <;> exact h.named, fun k => ?_⟩
    rw [hf, foldl_concat, raiseConsumer, BTreeMap.getElem?_insert,
      getD_eq_getD_getElem?, ← h.tally, ← h.tally]
    by_cases hk : c.consumer = k
    · subst hk
      unfold stale
      cases hp : book.received[c.consumer]? with
      | none => simp
      | some prev =>
        by_cases hle : c.cumulativeBytes ≤ prev.cumulativeBytes
        · simp [hle, hp]
        · simp [hle, (not_le.mp hle).le]
    · rw [if_neg hk]
      split
      · rfl
      · rw [getElem?_insert_of_ne _ hk]
  · rw [if_pos (hb.mpr hc)]
    refine ⟨h.named, fun k => ?_⟩
    simpa [hc] using h.tally k

theorem Holds.recordAll (h : book.Holds S me given) (cheques : List ServingCheque) :
    (book.recordAll S cheques).Holds S me (given ++ cheques) := by
  induction cheques generalizing book given with
  | nil => simpa [ChequeBook.recordAll] using h
  | cons c cheques ih => simpa [ChequeBook.recordAll] using ih (h.record c)

theorem Holds.total (h : book.Holds S me given) :
    BTreeMap.total (fun _ c => c.cumulativeBytes.val) book.received
      = shown (given.filter (backs S me)) := by
  rw [← total_foldl_raiseConsumer]
  exact (total_map (fun _ (v : U64) => v.val) h.tally).symm

theorem Holds.exists_totalEarned (h : book.Holds S me given) :
    (∃ total, book.totalEarned = .ok total) ↔ shown (given.filter (backs S me)) < 2 ^ 64 := by
  rw [totalEarned, Word.exists_sumOrPanic_eq_ok, List.map_map, ← h.total]
  rfl

/-! ## What a book is worth -/

/-- The sum that `total_earned` takes, as a number. -/
def worth (book : ChequeBook) : ℕ := BTreeMap.total (fun _ c => c.cumulativeBytes.val) book.received

theorem totalEarned_eq_ok {earned : U64} :
    book.totalEarned = .ok earned ↔ earned.val = book.worth := by
  rw [totalEarned, Word.sumOrPanic_eq_ok, List.map_map]
  rfl

theorem worth_insert (book : ChequeBook) (c : ServingCheque) :
    worth { book with received := book.received.insert c.consumer c }
        + book.received[c.consumer]?.elim 0 (fun c => c.cumulativeBytes.val)
      = book.worth + c.cumulativeBytes.val :=
  total_insert _ book.received c.consumer c

theorem worth_le_record (book : ChequeBook) (c : ServingCheque) :
    book.worth ≤ (book.record S c).1.worth := by
  rw [record]
  split_ifs with hr hs
  · exact le_rfl
  · exact le_rfl
  · have hin := worth_insert book c
    rw [stale] at hs
    dsimp only
    cases hp : book.received[c.consumer]? with
    | none =>
      rw [hp, Option.elim_none] at hin
      omega
    | some prev =>
      rw [hp] at hin hs
      have hlt : prev.cumulativeBytes.val < c.cumulativeBytes.val := by simpa using hs
      rw [Option.elim_some] at hin
      omega

theorem worth_le_recordAll (book : ChequeBook) (cheques : List ServingCheque) :
    book.worth ≤ (book.recordAll S cheques).worth := by
  induction cheques generalizing book with
  | nil => exact le_rfl
  | cons c cheques ih => exact (worth_le_record book c).trans (ih _)

end ChequeBook

/-! ## More cheques show no less -/

theorem shown_concat_le (proof : List ServingCheque) (c : ServingCheque) :
    shown proof ≤ shown (proof ++ [c]) := by
  have hins := total_insert (fun _ (v : U64) => v.val) (proof.foldl raiseConsumer ∅)
    c.consumer (max ((proof.foldl raiseConsumer ∅).getD c.consumer 0) c.cumulativeBytes)
  rw [← total_foldl_raiseConsumer, ← total_foldl_raiseConsumer (proof ++ [c]), foldl_concat,
    raiseConsumer]
  have hold : (proof.foldl raiseConsumer ∅)[c.consumer]?.elim 0 (fun v : U64 => v.val)
      ≤ (max ((proof.foldl raiseConsumer ∅).getD c.consumer 0) c.cumulativeBytes).val := by
    rw [getD_eq_getD_getElem?]
    cases (proof.foldl raiseConsumer ∅)[c.consumer]? with
    | none => exact Nat.zero_le _
    | some v => exact le_max_left v c.cumulativeBytes
  omega

theorem shown_append_le (proof more : List ServingCheque) :
    shown proof ≤ shown (proof ++ more) := by
  induction more using reverseRecOn with
  | nil => simp
  | append_singleton more c ih =>
    rw [← append_assoc]
    exact ih.trans (shown_concat_le _ c)

end Zephcraft.Cheque
