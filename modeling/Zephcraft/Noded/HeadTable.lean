import Zephcraft.Com.Registry
import Zephcraft.Foundations.Run

/-!
# Noded/HeadTable — a registry shard as a table

A node keeps the heads of a shard in an SQL table: one row for each `(owner, name)`, written by a
guarded upsert and read back with the owner's signature checked again. A version from `2 ^ 63` on is
stored as a double that does not read back, and a name with a zero byte ends its statement.
-/

namespace Zephcraft.Noded

open Zephcraft.Core Com Option Std.ExtTreeMap LastWriter

/-- The double nearest to an integer of the binade `[2 ^ 63, 2 ^ 64)`: a multiple of `2 ^ 11`, ties
to even. -/
def nearestDouble (n : ℕ) : ℕ :=
  let q := n / 2 ^ 11
  let r := n % 2 ^ 11
  if r < 2 ^ 10 ∨ (r = 2 ^ 10 ∧ q % 2 = 0) then q * 2 ^ 11 else (q + 1) * 2 ^ 11

theorem le_nearestDouble {n : ℕ} (h : 2 ^ 63 ≤ n) : 2 ^ 63 ≤ nearestDouble n := by
  unfold nearestDouble
  dsimp only
  split <;> omega

/-- A version, as the column stores the literal. -/
inductive VersionColumn where
  | integer (i : Word 63)
  | real (r : ℕ) (h : 2 ^ 63 ≤ r)
deriving DecidableEq

namespace VersionColumn

def ofLiteral (v : U64) : VersionColumn :=
  if h : v.val < 2 ^ 63 then .integer ⟨v.val, h⟩
  else .real (nearestDouble v.val) (le_nearestDouble (not_lt.mp h))

def number : VersionColumn → ℕ
  | integer i => i.val
  | real r _ => r

/-- Reading the column as an `i64`, and that as a `u64`. -/
def read : VersionColumn → Option U64
  | integer i => some (i.widen (by decide))
  | real _ _ => none

variable {v : U64}

theorem ofLiteral_of_lt (h : v.val < 2 ^ 63) : ofLiteral v = .integer ⟨v.val, h⟩ := dif_pos h

theorem number_ofLiteral_of_lt (h : v.val < 2 ^ 63) : (ofLiteral v).number = v.val := by
  rw [ofLiteral_of_lt h]
  rfl

theorem read_ofLiteral_of_lt (h : v.val < 2 ^ 63) : (ofLiteral v).read = some v := by
  rw [ofLiteral_of_lt h]
  rfl

theorem read_ofLiteral_of_le (h : 2 ^ 63 ≤ v.val) : (ofLiteral v).read = none := by
  rw [ofLiteral, dif_neg (not_lt.mpr h)]
  rfl

theorem val_of_read {c : VersionColumn} (h : c.read = some v) : c.number = v.val := by
  cases c with
  | integer i => exact congrArg Fin.val (Option.some.inj h)
  | real r _ => simp [read] at h

end VersionColumn

/-- A row of `heads`. -/
structure HeadRow where
  owner : B32
  name : Bytes
  cid : B32
  version : VersionColumn
  sig : Bytes
deriving DecidableEq

namespace HeadRow

def key (row : HeadRow) : HeadKey := (row.owner, row.name)

def ofEntry (e : HeadEntry) : HeadRow := ⟨e.owner, e.name, e.cid, .ofLiteral e.version, e.signature⟩

/-- The head a row is read as; a row whose version does not read is skipped. -/
def entry (row : HeadRow) : Option HeadEntry :=
  row.version.read.map fun version => ⟨row.owner, row.name, row.cid, version, row.sig⟩

@[simp] theorem key_ofEntry (e : HeadEntry) : (ofEntry e).key = e.key := rfl

variable {e : HeadEntry}

theorem key_of_entry {row : HeadRow} (h : row.entry = some e) : e.key = row.key := by
  obtain ⟨v, -, rfl⟩ := map_eq_some_iff.mp h
  rfl

theorem entry_ofEntry_of_lt (h : e.version.val < 2 ^ 63) : (ofEntry e).entry = some e := by
  rw [entry, ofEntry, VersionColumn.read_ofLiteral_of_lt h]
  rfl

theorem entry_ofEntry_of_le (h : 2 ^ 63 ≤ e.version.val) : (ofEntry e).entry = none := by
  rw [entry, ofEntry, VersionColumn.read_ofLiteral_of_le h]
  rfl

theorem eq_of_entry_ofEntry {e' : HeadEntry} (h : (ofEntry e).entry = some e') : e' = e := by
  rcases lt_or_ge e.version.val (2 ^ 63) with hlt | hle
  · rw [entry_ofEntry_of_lt hlt] at h
    exact (Option.some.inj h).symm
  · rw [entry_ofEntry_of_le hle] at h
    simp at h

end HeadRow

/-- The heads of one shard. A shard without a database reads as one without rows. -/
abbrev HeadTable := BTreeMap HeadKey HeadRow

namespace HeadTable

/-- `INSERT … ON CONFLICT DO UPDATE … WHERE excluded.version > heads.version`, with the name spelled
out in the statement; `none` is the error of a statement that ends inside the name. -/
def sqlUpsert (t : HeadTable) (e : HeadEntry) : Option HeadTable :=
  if (0 : Byte) ∈ e.name then none
  else some (keep HeadRow.key (fun row => row.version.number) t (.ofEntry e))

/-- The shard's heads as a registry state. -/
def sqlState (S : SigScheme) (t : HeadTable) : RegistryState :=
  RegistryState.empty.mergeEntries S (t.toList.filterMap fun row => row.2.entry)

/-- The head of a name, its signature checked. -/
def sqlResolve (S : SigScheme) (t : HeadTable) (owner : B32) (name : Bytes) :
    Option HeadEntry :=
  match t[(owner, name)]? with
  | none => none
  | some row =>
    match row.version.read with
    | none => none
    | some version =>
      let entry : HeadEntry := ⟨owner, name, row.cid, version, row.sig⟩
      if entry.verify S then some entry else none

/-- Write the heads of a state that came from another node; a failing statement ends the merge. -/
def sqlMerge (S : SigScheme) (t : HeadTable) : List HeadEntry → HeadTable
  | [] => t
  | e :: es =>
    if ¬ e.verify S then sqlMerge S t es
    else match t.sqlUpsert e with
      | none => t
      | some t => sqlMerge S t es

/-- The takeover merge: the states of the other replicas, one after another. -/
def takeover (S : SigScheme) (t : HeadTable) (fetched : List (List HeadEntry)) : HeadTable :=
  fetched.foldl (sqlMerge S) t

/-! ## What a table holds -/

variable {S : SigScheme} {t t' : HeadTable}

/-- Every row was written from a head with the property `P`, under its key. -/
def Written (P : HeadEntry → Prop) (t : HeadTable) : Prop :=
  ∀ (k : HeadKey) (row : HeadRow), t[k]? = some row → ∃ e : HeadEntry, row = .ofEntry e ∧ e.key = k
    ∧ P e

variable {P Q : HeadEntry → Prop}

theorem written_empty (P : HeadEntry → Prop) : Written P ∅ := by simp [Written]

theorem Written.mono (h : Written P t) (hPQ : ∀ e, P e → Q e) : Written Q t := fun k row hrow => by
  obtain ⟨e, he, hk, hP⟩ := h k row hrow
  exact ⟨e, he, hk, hPQ e hP⟩

variable {e : HeadEntry}

theorem Written.sqlUpsert (h : Written P t) (hP : (0 : Byte) ∉ e.name → P e)
    (hup : t.sqlUpsert e = some t') :
    Written P t' := by
  unfold HeadTable.sqlUpsert at hup
  split at hup
  · simp at hup
  · rename_i hn
    cases hup
    intro k row hrow
    rcases keep_cases HeadRow.key (fun row => row.version.number) t (.ofEntry e) with
      ⟨_, _, _, heq⟩ | ⟨_, heq⟩
    · rw [heq] at hrow
      exact h k row hrow
    · rw [heq, BTreeMap.getElem?_insert] at hrow
      split at hrow
      · rename_i hk
        cases hrow
        exact ⟨e, rfl, hk, hP hn⟩
      · exact h k row hrow

theorem Written.sqlMerge (h : Written P t) {es : List HeadEntry}
    (hP : ∀ e ∈ es, e.verify S → (0 : Byte) ∉ e.name → P e) : Written P (t.sqlMerge S es) := by
  induction es generalizing t with
  | nil => exact h
  | cons e es ih =>
    have hr : ∀ e ∈ es, e.verify S → (0 : Byte) ∉ e.name → P e := fun x hx =>
      hP x (.tail e hx)
    rw [HeadTable.sqlMerge]
    split
    · exact ih h hr
    · rename_i hv
      split
      · exact h
      · rename_i t' hup
        exact ih (h.sqlUpsert (hP e (.head _) (not_not.mp hv)) hup) hr

/-- **A head that is read back** was written, is the owner's, and is the one asked for. -/
theorem Written.sqlResolve (h : Written P t) {owner : B32} {name : Bytes}
    (hres : t.sqlResolve S owner name = some e) : P e ∧ e.verify S ∧ e.key = (owner, name) := by
  unfold HeadTable.sqlResolve at hres
  split at hres
  · simp at hres
  · rename_i row hrow
    obtain ⟨x, rfl, hkey, hP⟩ := h _ row hrow
    cases hkey
    split at hres
    · simp at hres
    · rename_i version hr
      have hx : (⟨x.owner, x.name, x.cid, version, x.signature⟩ : HeadEntry) = x :=
        HeadRow.eq_of_entry_ofEntry (by rw [HeadRow.entry, hr]; rfl)
      dsimp only at hres
      split at hres
      · rename_i hv
        cases hres
        exact ⟨hx.symm ▸ hP, hv, rfl⟩
      · simp at hres

theorem Written.of_mem_entries (h : Written P t) (he : e ∈ (t.sqlState S).entries) : P e := by
  obtain ⟨⟨k, row⟩, hmem, hen⟩ := List.mem_filterMap.mp (RegistryState.mem_of_mem_mergeEntries he)
  obtain ⟨x, rfl, -, hP⟩ := h k row (mem_toList_iff_getElem?_eq_some.mp hmem)
  exact HeadRow.eq_of_entry_ofEntry hen ▸ hP

/-- The rows of a table are verified heads, and written by statements that could be written. -/
abbrev Sound (S : SigScheme) (t : HeadTable) : Prop :=
  Written (fun e => e.verify S ∧ (0 : Byte) ∉ e.name) t

theorem Sound.sqlUpsert (h : Sound S t) (hv : e.verify S) (hup : t.sqlUpsert e = some t') :
    Sound S t' :=
  Written.sqlUpsert h (fun hn => ⟨hv, hn⟩) hup

theorem Sound.takeover (h : Sound S t) (fetched : List (List HeadEntry)) :
    Sound S (t.takeover S fetched) := by
  induction fetched generalizing t with
  | nil => exact h
  | cons es fetched ih => exact ih (Written.sqlMerge h fun _ _ hv hn => ⟨hv, hn⟩)

theorem Sound.rows_sqlState (h : Sound S t) (k : HeadKey) :
    (t.sqlState S).rows[k]? = (t[k]?).bind HeadRow.entry := by
  have hli : ∀ {e : HeadEntry}, e ∈ t.toList.filterMap (fun row => row.2.entry) ↔
      ∃ row, t[e.key]? = some row ∧ row.entry = some e := by
    intro e
    rw [List.mem_filterMap]
    constructor
    · rintro ⟨⟨k, row⟩, hmem, he⟩
      have hrow := mem_toList_iff_getElem?_eq_some.mp hmem
      obtain ⟨x, rfl, hk, -⟩ := h k row hrow
      rw [HeadRow.key_of_entry he, HeadRow.key_ofEntry, hk]
      exact ⟨_, hrow, he⟩
    · rintro ⟨row, hrow, he⟩
      exact ⟨(e.key, row), mem_toList_iff_getElem?_eq_some.mpr hrow, he⟩
  have hall : (t.toList.filterMap fun row => row.2.entry).filter (HeadEntry.verify S)
      = t.toList.filterMap fun row => row.2.entry := by
    refine List.filter_eq_self.mpr fun e he => ?_
    obtain ⟨row, hrow, hen⟩ := hli.mp he
    obtain ⟨x, rfl, -, hv, -⟩ := h _ row hrow
    exact HeadRow.eq_of_entry_ofEntry hen ▸ hv
  have hl : LastWriter.Latest HeadEntry.key HeadEntry.version _ _ :=
    latest_empty.foldl_keep (t.toList.filterMap fun row => row.2.entry)
  have hr : (t.sqlState S).rows = (t.toList.filterMap fun row => row.2.entry).foldl
      (keep HeadEntry.key HeadEntry.version) ∅ := by
    rw [sqlState, RegistryState.rows_mergeEntries, hall]
    rfl
  rw [← hr, List.nil_append] at hl
  -- an entry of the state is the entry of the row, and a row that reads is in the state
  cases hs : (t.sqlState S).rows[k]? with
  | some e =>
    obtain ⟨hmem, rfl⟩ := hl.mem k e hs
    obtain ⟨row, hrow, he⟩ := hli.mp hmem
    rw [hrow, bind_some, he]
  | none =>
    cases hb : (t[k]?).bind HeadRow.entry with
    | none => rfl
    | some e =>
      obtain ⟨row, hrow, he⟩ := bind_eq_some_iff.mp hb
      obtain ⟨x, rfl, hk, -⟩ := h k row hrow
      obtain rfl : e.key = k := (HeadRow.key_of_entry he).trans hk
      obtain ⟨held, hh, -⟩ := hl.top e (hli.mpr ⟨_, hrow, he⟩)
      simp [hs] at hh

end HeadTable

end Zephcraft.Noded
