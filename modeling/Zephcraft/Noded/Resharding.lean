import Zephcraft.Noded.HeadRegistry

/-!
# Noded/Resharding — carrying the heads over when the number of shards changes

A key belongs to the shard that the low bits of its hash name, and a change of the number of bits
makes a new **generation** of tables.
-/

namespace Zephcraft.Noded

open Zephcraft.Core Com List RegistryState HeadRow VersionColumn

/-! ## One table, key by key -/

namespace HeadTable

variable {S : SigScheme} {t : HeadTable} {e : HeadEntry} {k : HeadKey}

/-- The row that a guarded upsert of a head leaves under its key. -/
def upserted (held : Option HeadRow) (e : HeadEntry) : HeadRow :=
  match held with
  | some row => if row.version.number < (ofEntry e).version.number then .ofEntry e else row
  | none => .ofEntry e

def offered (held : Option HeadRow) : Option HeadEntry → Option HeadRow
  | some e => some (upserted held e)
  | none => held

theorem offered_offered (held : Option HeadRow) (e : Option HeadEntry) :
    offered (offered held e) e = offered held e := by
  cases e with
  | none => rfl
  | some e =>
    refine congrArg some ?_
    cases held with
    | none => simp [offered, upserted]
    | some row =>
      by_cases h : row.version.number < (ofEntry e).version.number <;> simp [offered, upserted, h]

theorem getElem?_sqlUpsert {t' : HeadTable} (h : t.sqlUpsert e = some t') :
    t'[k]? = if e.key = k then some (upserted t[k]? e) else t[k]? := by
  rw [sqlUpsert] at h
  split at h
  · cases h
  · cases h
    split
    · rename_i hk
      subst hk
      rcases LastWriter.keep_cases HeadRow.key (fun row => row.version.number) t (.ofEntry e) with
        ⟨held, hh, hle, heq⟩ | ⟨hlt, heq⟩
      · rw [key_ofEntry] at hh
        rw [heq, hh, upserted, if_neg (not_lt.mpr hle)]
      · rw [key_ofEntry] at hlt heq
        rw [heq, BTreeMap.getElem?_insert_self]
        cases hh : t[e.key]? with
        | none => rfl
        | some held => rw [upserted, if_pos (hlt held hh)]
    · rename_i hk
      exact LastWriter.getElem?_keep_of_ne hk

/-- **What a merge leaves under a key**: the heads of the key are offered to its row, one after
another. -/
theorem getElem?_sqlMerge {es : List HeadEntry} (hes : ∀ e ∈ es, e.verify S ∧ (0 : Byte) ∉ e.name) :
    (t.sqlMerge S es)[k]? = (es.filter (·.key = k)).foldl (fun held e => some (upserted held e))
      t[k]? := by
  induction es generalizing t with
  | nil => rfl
  | cons e es ih =>
    obtain ⟨hv, hn⟩ := hes e (.head _)
    obtain ⟨t', ht'⟩ : ∃ t', t.sqlUpsert e = some t' := ⟨_, if_neg hn⟩
    rw [sqlMerge, if_neg (not_not.mpr hv), ht', ih fun x hx => hes x (.tail e hx),
      getElem?_sqlUpsert ht']
    by_cases hk : e.key = k
    · rw [if_pos hk, filter_cons_of_pos (by simpa using hk), foldl_cons]
    · rw [if_neg hk, filter_cons_of_neg (by simpa using hk)]

theorem getElem?_sqlMerge_entries {state : RegistryState}
    (hes : ∀ e ∈ state.entries, e.verify S ∧ (0 : Byte) ∉ e.name) :
    (t.sqlMerge S state.entries)[k]? = offered t[k]? state.rows[k]? := by
  rw [getElem?_sqlMerge hes, filter_entries_eq]
  cases state.rows[k]? <;> rfl

/-- The heads of a table can be carried over: they verify, their versions fit the column, a
statement can spell their names, and they are in the shard of their key. -/
def Movable (S : SigScheme) (blake3 : Bytes → B32) (sk : ShardKey) (t : HeadTable) : Prop :=
  Written (fun e => e.verify S ∧ e.version.val < 2 ^ 63 ∧ (0 : Byte) ∉ e.name
    ∧ shardOf blake3 e.owner e.name sk.bits = sk.shard) t

section Movable

variable {blake3 : Bytes → B32} {sk : ShardKey}

theorem Movable.sound (h : Movable S blake3 sk t) : Sound S t :=
  Written.mono h fun _ he => ⟨he.1, he.2.2.1⟩

theorem Movable.rows_eq_some (h : Movable S blake3 sk t) :
    (t.sqlState S).rows[k]? = some e ↔ t[k]? = some (.ofEntry e)
    ∧ e.key = k ∧ e.verify S ∧ e.version.val < 2 ^ 63 ∧ (0 : Byte) ∉ e.name
    ∧ shardOf blake3 k.1 k.2 sk.bits = sk.shard := by
  rw [h.sound.rows_sqlState]
  constructor
  · intro hb
    obtain ⟨row, hrow, he⟩ := Option.bind_eq_some_iff.mp hb
    obtain ⟨x, rfl, rfl, hv, hve, hn, hs⟩ := h k row hrow
    obtain rfl := eq_of_entry_ofEntry he
    exact ⟨hrow, rfl, hv, hve, hn, hs⟩
  · rintro ⟨hrow, rfl, hv, hve, -⟩
    rw [hrow, Option.bind_some, entry_ofEntry_of_lt hve]

theorem Movable.of_mem_entries (h : Movable S blake3 sk t) (he : e ∈ (t.sqlState S).entries) :
    e.verify S ∧ e.version.val < 2 ^ 63 ∧ (0 : Byte) ∉ e.name
      ∧ shardOf blake3 e.owner e.name sk.bits = sk.shard :=
  (h.rows_eq_some.mp (mem_entries_iff.mp he)).2.2

end Movable

theorem sqlResolve_eq (S : SigScheme) {t t' : HeadTable} (h : t[k]? = t'[k]?) :
    t.sqlResolve S k.1 k.2 = t'.sqlResolve S k.1 k.2 := by
  rw [sqlResolve, sqlResolve, h]

theorem sqlResolve_ofEntry (hrow : t[e.key]? = some (.ofEntry e)) (hv : e.verify S)
    (hve : e.version.val < 2 ^ 63) :
    t.sqlResolve S e.owner e.name = some e := by
  have hr : (ofEntry e).version.read = some e.version := read_ofLiteral_of_lt hve
  have hkey : t[(e.owner, e.name)]? = some (.ofEntry e) := hrow
  rw [sqlResolve, hkey]
  simp only [hr]
  exact if_pos hv

theorem exists_row_of_sqlResolve {owner : B32} {name : Bytes}
    (h : t.sqlResolve S owner name = some e) :
    ∃ row, t[(owner, name)]? = some row ∧ row.version.number = e.version.val := by
  rw [sqlResolve] at h
  split at h
  · cases h
  · rename_i row hrow
    split at h
    · cases h
    · rename_i version hr
      dsimp only at h
      split at h
      · cases h
        exact ⟨row, hrow, val_of_read hr⟩
      · cases h

end HeadTable

/-! ## A sweep, key by key -/

def route (blake3 : Bytes → B32) (rtype : Byte) (bits : ℕ) (k : HeadKey) : ShardKey :=
  ⟨rtype, bits, shardOf blake3 k.1 k.2 bits⟩

theorem shard_route (blake3 : Bytes → B32) (rtype : Byte) (bits : ℕ) (e : HeadEntry) :
    (route blake3 rtype bits e.key).shard = shardOf blake3 e.owner e.name bits := rfl

theorem eq_route_iff {blake3 : Bytes → B32} {sk : ShardKey} {rtype : Byte} {bits : ℕ}
    {k : HeadKey} :
    sk = route blake3 rtype bits k ↔ sk.rtype = rtype ∧ sk.bits = bits
      ∧ sk.shard = shardOf blake3 k.1 k.2 bits := by
  obtain ⟨rtype', bits', shard'⟩ := sk
  exact ShardKey.mk.injEq .. ▸ Iff.rfl

namespace Shards

open HeadTable

variable {S : SigScheme} {blake3 : Bytes → B32} {s acc : Shards} {sk sk' : ShardKey} {src dst : ℕ}
  {k : HeadKey} {order : List ShardKey}

theorem eq_route_of_rows (h : Movable S blake3 sk (s sk)) {e : HeadEntry}
    (he : ((s sk).sqlState S).rows[k]? = some e) :
    sk = route blake3 sk.rtype sk.bits k := by
  exact eq_route_iff.mpr ⟨rfl, rfl, (h.rows_eq_some.mp he).2.2.2.2.2.symm⟩

/-- **What one batch does**: the head of a key is offered to the row that the key has in the new
generation. -/
theorem getElem?_sweepShard (h : Movable S blake3 sk (s sk)) :
    (acc.sweepShard S blake3 sk.rtype ((s sk).sqlState S).entries dst sk')[k]?
      = if sk' = route blake3 sk.rtype dst k then offered (acc sk')[k]? ((s sk).sqlState S).rows[k]?
        else (acc sk')[k]? := by
  have hv : ∀ e ∈ ((s sk).sqlState S).entries, e.verify S := fun e he => (h.of_mem_entries he).1
  have hm := rows_mergeEntries_filter hv
    (fun k => decide (shardOf blake3 k.1 k.2 dst = sk'.shard)) k
  rw [sweepShard]
  split
  · rename_i hk
    dsimp only
    rw [getElem?_sqlMerge_entries fun e he => ?_]
    · refine (congrArg (offered _) hm).trans ?_
      by_cases hs : shardOf blake3 k.1 k.2 dst = sk'.shard
      · rw [if_pos (by simpa using hs), if_pos (eq_route_iff.mpr ⟨hk.1, hk.2, hs.symm⟩)]
      · rw [if_neg (by simpa using hs), if_neg fun heq => hs (eq_route_iff.mp heq).2.2.symm]
        rfl
    · have hmem := (mem_filter.mp (mem_of_mem_mergeEntries he)).1
      exact ⟨hv e hmem, (h.of_mem_entries hmem).2.2.1⟩
  · rename_i hk
    rw [if_neg fun heq => hk ⟨(eq_route_iff.mp heq).1, (eq_route_iff.mp heq).2.1⟩]

/-- The head that the old generation has for a key. -/
def headAt (S : SigScheme) (blake3 : Bytes → B32) (s : Shards) (rtype : Byte) (bits : ℕ)
    (k : HeadKey) :
    Option HeadEntry :=
  ((s (route blake3 rtype bits k)).sqlState S).rows[k]?

/-- **What a sweep does**: the row of a key in the new generation is offered the head of the key in
the old one, if that table is among those swept; nothing else changes. -/
theorem getElem?_sweepGeneration (h : ∀ sk ∈ order, sk.bits = src ∧ Movable S blake3 sk (s sk)) :
    (s.sweepGeneration S blake3 order dst sk')[k]?
      = if sk' = route blake3 sk'.rtype dst k ∧ route blake3 sk'.rtype src k ∈ order
        then offered (s sk')[k]? (s.headAt S blake3 sk'.rtype src k) else (s sk')[k]? := by
  -- the batches are read before any is written: the fold runs over fixed batches
  have hf : ∀ acc : Shards, ((order.map fun sk => (sk.rtype, ((s sk).sqlState S).entries)).foldl
      (fun s batch => s.sweepShard S blake3 batch.1 batch.2 dst) acc sk')[k]?
        = if sk' = route blake3 sk'.rtype dst k ∧ route blake3 sk'.rtype src k ∈ order
          then offered (acc sk')[k]? (s.headAt S blake3 sk'.rtype src k) else (acc sk')[k]? := by
    induction order with
    | nil => intro acc; simp
    | cons sk order ih =>
      intro acc
      obtain ⟨hbi, hm⟩ := h sk (.head _)
      rw [map_cons, foldl_cons, ih fun x hx => h x (.tail sk hx), getElem?_sweepShard hm]
      by_cases hdst : sk' = route blake3 sk'.rtype dst k
      · by_cases hh : sk = route blake3 sk'.rtype src k
        · -- the table of the key: it is read now, and may be read again
          have hrt := (eq_route_iff.mp hh).1
          have hhe : ((s sk).sqlState S).rows[k]? = s.headAt S blake3 sk'.rtype src k := by
            rw [headAt, ← hh]
          rw [hrt, if_pos hdst, hhe]
          have hb :
              sk' = route blake3 sk'.rtype dst k ∧ route blake3 sk'.rtype src k ∈ sk :: order :=
            ⟨hdst, mem_cons.mpr (.inl hh.symm)⟩
          rw [if_pos hb, offered_offered]
          split <;> rfl
        · have hmem : route blake3 sk'.rtype src k ∈ sk :: order
              ↔ route blake3 sk'.rtype src k ∈ order :=
            ⟨fun hin => (mem_cons.mp hin).resolve_left fun heq => hh heq.symm, mem_cons_of_mem sk⟩
          have hs :
              (if sk' = route blake3 sk.rtype dst k then offered (acc sk')[k]?
                ((s sk).sqlState S).rows[k]?
              else (acc sk')[k]?) = (acc sk')[k]? := by
            split
            · rename_i hr
              have hrt := (eq_route_iff.mp hr).1
              cases hrow : ((s sk).sqlState S).rows[k]? with
              | none => rfl
              | some e =>
                refine absurd ?_ hh
                rw [hrt, ← hbi]
                exact eq_route_of_rows hm hrow
            · rfl
          rw [hs]
          simp only [hmem]
      · have ho : ¬ sk' = route blake3 sk.rtype dst k := fun hr =>
          hdst (by rwa [(eq_route_iff.mp hr).1])
        rw [if_neg ho, if_neg fun hb => hdst hb.1, if_neg fun hb => hdst hb.1]
  exact hf s

end Shards

/-! ## The index of held shards -/

/-- The tables of a node, and the shards it holds. -/
@[ext] structure ShardStore where
  shards : Shards
  held : Finset ShardKey

namespace ShardStore

open HeadTable Shards

variable (S : SigScheme) (blake3 : Bytes → B32) (store : ShardStore)

def heldShards (bits : ℕ) : Finset ShardKey := store.held.filter (·.bits = bits)

def headsOf (sk : ShardKey) : List HeadEntry := ((store.shards sk).sqlState S).entries

/-- Carry the heads of the listed shards over into a generation; a table that a head was written to
is held. -/
def sweepGeneration (order : List ShardKey) (dst : ℕ) : ShardStore where
  shards := store.shards.sweepGeneration S blake3 order dst
  held := store.held ∪ (order.flatMap fun sk => (store.headsOf S sk).map fun e =>
      route blake3 sk.rtype dst e.key).toFinset

/-- The heads of the held shards of a generation can be carried over. -/
def Ready (src : ℕ) : Prop :=
  ∀ sk ∈ store.heldShards src, Movable S blake3 sk (store.shards sk)

variable {S blake3} {store : ShardStore} {src dst : ℕ} {order order' : List ShardKey}
  {sk sk' : ShardKey} {k : HeadKey} {e : HeadEntry}

theorem mem_held_sweepGeneration : sk' ∈ (store.sweepGeneration S blake3 order dst).held
    ↔ sk' ∈ store.held ∨ ∃ sk ∈ order, ∃ e ∈ store.headsOf S sk,
    sk' = route blake3 sk.rtype dst e.key := by
  simp only [sweepGeneration, Finset.mem_union, mem_toFinset, mem_flatMap, mem_map,
    eq_comm (a := sk')]

section Sweep

variable (hready : store.Ready S blake3 src) (horder : order.toFinset = store.heldShards src)
include hready horder

theorem movable_of_mem (hsk : sk ∈ order) :
    sk.bits = src ∧ Movable S blake3 sk (store.shards sk) := by
  have hh : sk ∈ store.heldShards src := horder ▸ mem_toFinset.mpr hsk
  exact ⟨(Finset.mem_filter.mp hh).2, hready sk hh⟩

theorem getElem?_sweep : ((store.sweepGeneration S blake3 order dst).shards sk')[k]?
    = if sk' = route blake3 sk'.rtype dst k ∧ route blake3 sk'.rtype src k ∈ order
      then offered (store.shards sk')[k]? (store.shards.headAt S blake3 sk'.rtype src k)
        else (store.shards sk')[k]? :=
  getElem?_sweepGeneration fun _ hsk => movable_of_mem hready horder hsk

theorem getElem?_sweep_of_mem (hsk : sk ∈ order) (he : e ∈ store.headsOf S sk) :
    ((store.sweepGeneration S blake3 order dst).shards (route blake3 sk.rtype dst e.key))[e.key]?
      = some (upserted (store.shards (route blake3 sk.rtype dst e.key))[e.key]? e) := by
  obtain ⟨rfl, hm⟩ := movable_of_mem hready horder hsk
  have hrow := mem_entries_iff.mp he
  have hh := eq_route_of_rows hm hrow
  have hhe : store.shards.headAt S blake3 sk.rtype sk.bits e.key = some e := by
    rw [headAt, ← hh, hrow]
  have hr : (route blake3 sk.rtype dst e.key).rtype = sk.rtype := rfl
  rw [getElem?_sweep hready horder, hr, ← hh, if_pos ⟨rfl, hsk⟩, hhe]
  rfl

theorem exists_of_ne
    (hne : ((store.sweepGeneration S blake3 order dst).shards sk')[k]? ≠ (store.shards sk')[k]?) :
    ∃ sk ∈ order, ∃ e ∈ store.headsOf S sk, e.key = k ∧ sk' = route blake3 sk.rtype dst k
      ∧ ((store.sweepGeneration S blake3 order dst).shards sk')[k]? = some (.ofEntry e)
      ∧ ∀ row, (store.shards sk')[k]? = some row → row.version.number < e.version.val := by
  rw [getElem?_sweep hready horder] at hne ⊢
  split at hne
  · rename_i hr
    obtain ⟨-, hm⟩ := movable_of_mem hready horder hr.2
    rw [if_pos hr]
    cases hh : store.shards.headAt S blake3 sk'.rtype src k with
    | none =>
      rw [hh] at hne
      exact absurd rfl hne
    | some e =>
      rw [hh] at hne
      obtain ⟨-, rfl, -, hv, -⟩ := hm.rows_eq_some.mp hh
      have hn : (ofEntry e).version.number = e.version.val := number_ofLiteral_of_lt hv
      refine ⟨_, hr.2, e, mem_entries_iff.mpr hh, rfl, hr.1, ?_⟩
      cases hrow : (store.shards sk')[e.key]? with
      | none => exact ⟨rfl, by simp⟩
      | some row =>
        by_cases hlt : row.version.number < (ofEntry e).version.number
        · refine ⟨by simp [offered, upserted, hlt], fun row' hrow' => ?_⟩
          cases hrow'
          rwa [hn] at hlt
        · simp [hrow, offered, upserted, hlt] at hne
  · exact absurd rfl hne

theorem shards_sweep_of_ne (hb : sk'.bits ≠ dst) :
    (store.sweepGeneration S blake3 order dst).shards sk' = store.shards sk' := by
  refine Std.ExtTreeMap.ext_getElem? fun k => ?_
  by_contra hne
  obtain ⟨sk, -, e, -, -, hr, -⟩ := exists_of_ne hready horder hne
  exact hb (eq_route_iff.mp hr).2.1

theorem sqlResolve_mono {owner : B32} {name : Bytes}
    (h : (store.shards sk').sqlResolve S owner name = some e) :
    ∃ e', ((store.sweepGeneration S blake3 order dst).shards sk').sqlResolve S owner name = some e'
      ∧ e.version ≤ e'.version := by
  by_cases hs : ((store.sweepGeneration S blake3 order dst).shards sk')[(owner, name)]?
    = (store.shards sk')[(owner, name)]?
  · exact ⟨e, (sqlResolve_eq S hs).trans h, le_rfl⟩
  · obtain ⟨sk, hsk, x, hx, hkey, -, hrow, hlt⟩ := exists_of_ne hready horder hs
    obtain ⟨hv, hve, -⟩ := (movable_of_mem hready horder hsk).2.of_mem_entries hx
    obtain ⟨row, hb, hn⟩ := exists_row_of_sqlResolve h
    cases hkey
    refine ⟨x, sqlResolve_ofEntry hrow hv hve, Fin.le_def.mpr ?_⟩
    have := hlt row hb
    omega

theorem sweepGeneration_self : store.sweepGeneration S blake3 order src = store := by
  refine ShardStore.ext (funext fun sk' => Std.ExtTreeMap.ext_getElem? fun k => ?_)
    (Finset.ext fun sk' => ?_)
  · by_contra hne
    obtain ⟨sk, hsk, e, he, rfl, hr, -, hlt⟩ := exists_of_ne hready horder hne
    obtain ⟨rfl, hm⟩ := movable_of_mem hready horder hsk
    have hrow := mem_entries_iff.mp he
    obtain rfl : sk' = sk := hr.trans (eq_route_of_rows hm hrow).symm
    obtain ⟨hh, -, -, hv, -⟩ := hm.rows_eq_some.mp hrow
    have := hlt _ hh
    rw [ofEntry, number_ofLiteral_of_lt hv] at this
    exact lt_irrefl _ this
  · rw [mem_held_sweepGeneration]
    refine ⟨?_, .inl⟩
    rintro (hh | ⟨sk, hsk, e, he, rfl⟩)
    · exact hh
    · obtain ⟨hb, hm⟩ := movable_of_mem hready horder hsk
      rw [← hb, ← eq_route_of_rows hm (mem_entries_iff.mp he)]
      exact (Finset.mem_filter.mp (horder ▸ mem_toFinset.mpr hsk : sk ∈ store.heldShards src)).1

theorem sweepGeneration_again
    (ho' : order'.toFinset = (store.sweepGeneration S blake3 order dst).heldShards src) :
    (store.sweepGeneration S blake3 order dst).sweepGeneration S blake3 order' dst
      = store.sweepGeneration S blake3 order dst := by
  rcases eq_or_ne src dst with rfl | hne
  · rw [sweepGeneration_self hready horder] at ho' ⊢
    exact sweepGeneration_self hready ho'
  -- the old generation is as it was, so the second sweep reads what the first has read
  have hs : ∀ {sk}, sk.bits = src → (store.sweepGeneration S blake3 order dst).shards sk
      = store.shards sk :=
    fun hb => shards_sweep_of_ne hready horder (hb.trans_ne hne)
  have hl : ∀ sk, sk ∈ order' ↔ sk ∈ order := by
    intro sk
    rw [← mem_toFinset, ho', ← mem_toFinset (l := order), horder, heldShards, heldShards,
      Finset.mem_filter, Finset.mem_filter, mem_held_sweepGeneration]
    refine ⟨fun ⟨hh, hb⟩ => ⟨hh.resolve_right ?_, hb⟩, fun ⟨hh, hb⟩ => ⟨.inl hh, hb⟩⟩
    rintro ⟨sk₀, -, e, -, rfl⟩
    exact hne hb.symm
  have hr' : (store.sweepGeneration S blake3 order dst).Ready S blake3 src := by
    intro sk hsk
    have hb := (Finset.mem_filter.mp hsk).2
    rw [hs hb]
    have hmem : sk ∈ order := (hl sk).mp (mem_toFinset.mp (ho' ▸ hsk))
    exact (movable_of_mem hready horder hmem).2
  refine ShardStore.ext (funext fun sk' => Std.ExtTreeMap.ext_getElem? fun k => ?_)
    (Finset.ext fun sk' => ?_)
  · have hhe : (store.sweepGeneration S blake3 order dst).shards.headAt S blake3 sk'.rtype src k
        = store.shards.headAt S blake3 sk'.rtype src k := by
      rw [headAt, headAt, hs]
      rfl
    rw [getElem?_sweep hr' ho', hhe]
    simp only [hl]
    rw [getElem?_sweep hready horder]
    split
    · rw [offered_offered]
    · rfl
  · rw [mem_held_sweepGeneration]
    refine ⟨?_, .inl⟩
    rintro (hh | ⟨sk, hsk, e, he, rfl⟩)
    · exact hh
    · have hmem := (hl sk).mp hsk
      rw [headsOf, hs (movable_of_mem hready horder hmem).1] at he
      exact mem_held_sweepGeneration.mpr (.inr ⟨sk, hmem, e, he, rfl⟩)

/-- **When a swept head resolves**: unless the row that it meets is as high and does not. -/
theorem exists_sqlResolve_iff (hsk : sk ∈ order) (he : e ∈ store.headsOf S sk) :
    (∃ e', ((store.sweepGeneration S blake3 order dst).shards
      (route blake3 sk.rtype dst e.key)).sqlResolve S e.owner e.name
        = some e' ∧ e.version ≤ e'.version)
      ↔ ∀ row, (store.shards (route blake3 sk.rtype dst e.key))[e.key]? = some row
        → e.version.val ≤ row.version.number
        → ∃ e', (store.shards (route blake3 sk.rtype dst e.key)).sqlResolve S e.owner e.name
          = some e' := by
  obtain ⟨hv, hve, -⟩ := (movable_of_mem hready horder hsk).2.of_mem_entries he
  have ha :
      ((store.sweepGeneration S blake3 order dst).shards (route blake3 sk.rtype dst e.key))[e.key]?
      = some (upserted (store.shards (route blake3 sk.rtype dst e.key))[e.key]? e) :=
    getElem?_sweep_of_mem hready horder hsk he
  have hn : (ofEntry e).version.number = e.version.val := number_ofLiteral_of_lt hve
  cases hrow : (store.shards (route blake3 sk.rtype dst e.key))[e.key]? with
  | none =>
    rw [hrow] at ha
    exact ⟨fun _ _ hrow' => (nomatch hrow'), fun _ => ⟨e, sqlResolve_ofEntry ha hv hve, le_rfl⟩⟩
  | some row =>
    rw [hrow, upserted, hn] at ha
    rcases lt_or_ge row.version.number e.version.val with hlt | hge
    · rw [if_pos hlt] at ha
      refine ⟨fun _ row' hrow' hle => ?_, fun _ => ⟨e, sqlResolve_ofEntry ha hv hve, le_rfl⟩⟩
      cases hrow'
      exact absurd hle (not_le.mpr hlt)
    · rw [if_neg (not_lt.mpr hge), ← hrow] at ha
      have hr := sqlResolve_eq S ha
      constructor
      · rintro ⟨e', he', -⟩ row' - -
        exact ⟨e', hr.symm.trans he'⟩
      · intro hre
        obtain ⟨e', he'⟩ := hre row rfl hge
        obtain ⟨row', hrow', hn'⟩ := exists_row_of_sqlResolve he'
        cases hrow.symm.trans hrow'
        exact ⟨e', hr.trans he', Fin.le_def.mpr (hn' ▸ hge)⟩

end Sweep

theorem shardOf_succ (owner : B32) (name : Bytes) {bits : ℕ} (hbi : bits + 1 ≤ 63) :
    (shardOf blake3 owner name (bits + 1)).val = (shardOf blake3 owner name bits).val
      ∨ (shardOf blake3 owner name (bits + 1)).val = (shardOf blake3 owner name bits).val
        + 2 ^ bits := by
  have hfit : ∀ {b x : ℕ}, b ≤ 63 → x % 2 ^ b % 2 ^ 64 = x % 2 ^ b := fun hb =>
    Nat.mod_eq_of_lt ((Nat.mod_lt _ (by positivity)).trans_le
      (Nat.pow_le_pow_right (by norm_num) (by omega)))
  rw [shardOf, shardOf, Word.val_truncate, Word.val_truncate, hfit hbi, hfit (by omega),
    Nat.mod_pow_succ]
  rcases Nat.mod_two_eq_zero_or_one (ofLeBytes ((blake3 (owner.toBytes ++ name)).toBytes.take 8) / 2
    ^ bits) with h | h
  · exact .inl (by rw [h, Nat.mul_zero, Nat.add_zero])
  · exact .inr (by rw [h, Nat.mul_one])

/-- **Online resharding loses nothing, exactly if no head meets a row as high that does not
resolve.** The heads of the held shards of generation `src` are in order, and a sweep lists the
shards in any order. In any case a head that resolved in generation `dst` is not lowered, a second
sweep changes nothing, and with one bit more what changes is in a shard of the same number or in the
one `2 ^ src` further. -/
theorem sweep_loses_nothing_iff (S : SigScheme) (blake3 : Bytes → B32) (store : ShardStore)
    {src dst : ℕ} (hdst : dst ≤ 63) (hready : store.Ready S blake3 src) {order : List ShardKey}
    (horder : order.toFinset = store.heldShards src) :
    ((∀ sk ∈ store.heldShards src, ∀ e ∈ store.headsOf S sk, ∃ e',
        ((store.sweepGeneration S blake3 order dst).shards
          (route blake3 sk.rtype dst e.key)).sqlResolve S e.owner e.name
          = some e' ∧ e.version ≤ e'.version)
      ∧ (∀ sk owner name e, sk.bits = dst → (store.shards sk).sqlResolve S owner name = some e
        → ∃ e', ((store.sweepGeneration S blake3 order dst).shards sk).sqlResolve S owner name
          = some e' ∧ e.version ≤ e'.version)
      ∧ (∀ order', order'.toFinset = (store.sweepGeneration S blake3 order dst).heldShards src →
        (store.sweepGeneration S blake3 order dst).sweepGeneration S blake3 order' dst
          = store.sweepGeneration S blake3 order dst)
      ∧ (dst = src + 1 → ∀ sk' k, ((store.sweepGeneration S blake3 order dst).shards sk')[k]?
        ≠ (store.shards sk')[k]? → ∃ sk ∈ store.heldShards src, ∃ e ∈ store.headsOf S sk, e.key = k
          ∧ sk'.rtype = sk.rtype ∧ sk'.bits = dst ∧ (sk'.shard.val = sk.shard.val
            ∨ sk'.shard.val = sk.shard.val + 2 ^ src)))
    ↔ ∀ sk ∈ store.heldShards src, ∀ e ∈ store.headsOf S sk, ∀ row,
        (store.shards (route blake3 sk.rtype dst e.key))[e.key]? = some row
          → e.version.val ≤ row.version.number
          → ∃ e', (store.shards (route blake3 sk.rtype dst e.key)).sqlResolve S e.owner e.name
            = some e' := by
  have hlisted : ∀ {sk}, sk ∈ store.heldShards src ↔ sk ∈ order := by
    intro sk
    rw [← horder, mem_toFinset]
  constructor
  · rintro ⟨hresolve, -⟩ sk hsk e he
    exact (exists_sqlResolve_iff hready horder (hlisted.mp hsk) he).mp (hresolve sk hsk e he)
  · intro hreads
    refine ⟨fun sk hsk e he => ?_, fun sk owner name e _ h => sqlResolve_mono hready horder h,
      fun order' horder' => sweepGeneration_again hready horder horder', ?_⟩
    · exact (exists_sqlResolve_iff hready horder (hlisted.mp hsk) he).mpr (hreads sk hsk e he)
    · rintro rfl sk' k hne
      obtain ⟨sk, hsk, e, he, rfl, hroute, -⟩ := exists_of_ne hready horder hne
      obtain ⟨hrtype, hbits, hshard⟩ := eq_route_iff.mp hroute
      obtain ⟨rfl, hmove⟩ := movable_of_mem hready horder hsk
      refine ⟨sk, hlisted.mpr hsk, e, he, rfl, hrtype, hbits, ?_⟩
      rw [hshard, ← (hmove.of_mem_entries he).2.2.2]
      exact shardOf_succ e.owner e.name hdst

end ShardStore

/-! ## One head -/

def appHead : HeadEntry := (HeadSubmission.sign .transparent (5 : B32) (ascii "app") 100 1).entry

/-- A node that holds the head in a generation of two shards, and has another head of the name in
one of four. -/
def grown (other : HeadEntry) : ShardStore where
  shards sk :=
    if sk = route blake3 rtProgram 1 appHead.key then HeadTable.sqlMerge .transparent ∅ [appHead]
    else if sk = route blake3 rtProgram 2 appHead.key then HeadTable.sqlMerge .transparent ∅ [other]
    else ∅
  held := {route blake3 rtProgram 1 appHead.key}

theorem heldShards_grown (other : HeadEntry) :
    (grown other).heldShards 1 = {route blake3 rtProgram 1 appHead.key} :=
  Finset.filter_true_of_mem (by simp [grown, route])

theorem ready_grown (other : HeadEntry) : (grown other).Ready .transparent blake3 1 := by
  intro sk hsk
  rw [heldShards_grown, Finset.mem_singleton] at hsk
  subst hsk
  have ht :
      (grown other).shards (route blake3 rtProgram 1 appHead.key)
        = HeadTable.sqlMerge .transparent ∅ [appHead] := by
    rw [grown]
    dsimp only
    rw [if_pos rfl]
  rw [ht]
  refine HeadTable.Written.sqlMerge (HeadTable.written_empty _) fun e he hv hn => ?_
  obtain rfl := mem_singleton.mp he
  exact ⟨hv, by decide, hn, (shard_route blake3 rtProgram 1 appHead).symm⟩

/-- The head is carried over past one of a lower version. -/
theorem sweep_loses_nothing_iff_grown :
    let other := (HeadSubmission.sign .transparent (5 : B32) (ascii "app") 200 0).entry
    ∃ e', (((grown other).sweepGeneration .transparent blake3 [route blake3 rtProgram 1 appHead.key]
      2).shards (route blake3 rtProgram 2 appHead.key)).sqlResolve .transparent appHead.owner
        appHead.name = some e' ∧ appHead.version ≤ e'.version := by
  intro other
  have hheads : (grown other).headsOf .transparent (route blake3 rtProgram 1 appHead.key)
      = [appHead] := by decide +kernel
  have hlower : ((grown other).shards (route blake3 rtProgram 2 appHead.key))[appHead.key]?
      = some (.ofEntry other) := by
    decide +kernel
  have hbits : 2 ≤ 63 := by decide
  have horder : [route blake3 rtProgram 1 appHead.key].toFinset = (grown other).heldShards 1 := by
    rw [heldShards_grown]
    rfl
  have hheld : route blake3 rtProgram 1 appHead.key ∈ (grown other).heldShards 1 := by
    simp [heldShards_grown]
  have hmem :
      appHead ∈ (grown other).headsOf .transparent (route blake3 rtProgram 1 appHead.key) := by
    simp [hheads]
  refine ((ShardStore.sweep_loses_nothing_iff .transparent blake3 (grown other) hbits
    (ready_grown other) horder).mpr
    fun sk hsk e he row hrow hle => ?_).1 (route blake3 rtProgram 1 appHead.key) hheld appHead hmem
  -- the only row that a head meets is lower
  rw [heldShards_grown, Finset.mem_singleton] at hsk
  subst hsk
  rw [hheads, mem_singleton] at he
  subst he
  cases hlower.symm.trans hrow
  exact absurd hle (by decide)

/-- **A version from `2 ^ 63` on in the new generation hides the name**: the head of the old one is
held, verifies and sits in its shard, and after the sweep the name does not resolve. -/
theorem sweep_meets_unreadable :
    let other := (HeadSubmission.sign .transparent (5 : B32) (ascii "app") 200 (2 ^ 63)).entry
    other.verify .transparent ∧ (grown other).Ready .transparent blake3 1
      ∧ [route blake3 rtProgram 1 appHead.key].toFinset = (grown other).heldShards 1
      ∧ appHead ∈ (grown other).headsOf .transparent (route blake3 rtProgram 1 appHead.key)
      ∧ (((grown other).sweepGeneration .transparent blake3 [route blake3 rtProgram 1 appHead.key]
        2).shards (route blake3 rtProgram 2 appHead.key)).sqlResolve .transparent appHead.owner
          appHead.name = none := by
  intro other
  exact ⟨by decide +kernel, ready_grown other, (heldShards_grown other).symm, by decide +kernel,
    by decide +kernel⟩

end Zephcraft.Noded
