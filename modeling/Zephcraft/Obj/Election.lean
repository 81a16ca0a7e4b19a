import Zephcraft.Erasure.Coding

/-!
# Obj/Election — who scans, repairs and sheds

Nodes elect among the holders of a content by a hash of node, content and epoch, each for itself, so
that as long as they agree on the epoch they agree on the winner. The epoch is meant to last
`HEALTH_EPOCH_MS` milliseconds.
-/

namespace Zephcraft.Obj

open List

/-! ## The clock -/

namespace Timestamp

/-- `(millis << 16) | logical`, in 48 and 16 bits. -/
def fromParts (millis : U64) (logical : Word 16) : U64 :=
  Word.truncate ((millis.val &&& 0xFFFFFFFFFFFF) <<< 16 ||| logical.val)

def millis (t : U64) : ℕ := t.val >>> 16

end Timestamp

def healthEpochMs : ℕ := 30000

/-- `now.0 / HEALTH_EPOCH_MS`. -/
def epochOf (now : U64) : U64 := ⟨now.val / healthEpochMs, (Nat.div_le_self _ _).trans_lt now.isLt⟩

/-- **No epoch begins between the readings**: they are on the same side of every multiple of
`HEALTH_EPOCH_MS` of the packed clock. -/
def SameTick (t t' : U64) : Prop := ∀ n, n * healthEpochMs ≤ t.val ↔ n * healthEpochMs ≤ t'.val

theorem epochOf_eq_iff {t t' : U64} : epochOf t = epochOf t' ↔ SameTick t t' := by
  have hle : ∀ (s : U64) n, n * healthEpochMs ≤ s.val ↔ n ≤ (epochOf s).val := fun s n =>
    (Nat.le_div_iff_mul_le (by decide)).symm
  constructor
  · intro h n
    rw [hle, hle, h]
  · intro h
    simp only [SameTick, hle] at h
    exact Fin.ext (le_antisymm ((h _).mp le_rfl) ((h _).mpr le_rfl))

/-! ## Elections -/

/-- `max_by_key`: of several greatest elements the last one. -/
def maxByKey {α β : Type*} [LE β] [DecidableLE β] (key : α → β) : List α → Option α
  | [] => none
  | a :: l => some (l.foldl (fun best x => if key best ≤ key x then x else best) a)

section

variable {α β : Type*} [LinearOrder β] {key : α → β} {l l' : List α} {m : α}

theorem foldl_max_spec (l : List α) (a : α) :
    let m := l.foldl (fun best x => if key best ≤ key x then x else best) a
    m ∈ a :: l ∧ ∀ x ∈ a :: l, key x ≤ key m := by
  induction l generalizing a with
  | nil => simp
  | cons b l ih =>
    rw [foldl_cons]
    split_ifs with hle
    · obtain ⟨hmem, hmax⟩ := ih b
      refine ⟨mem_cons_of_mem a hmem, fun x hx => ?_⟩
      rcases mem_cons.mp hx with rfl | hx
      · exact hle.trans (hmax b (by simp))
      · exact hmax x hx
    · obtain ⟨hmem, hmax⟩ := ih a
      refine ⟨?_, fun x hx => ?_⟩
      · rcases mem_cons.mp hmem with h | h
        · exact mem_cons.mpr (.inl h)
        · exact mem_cons_of_mem a (.tail b h)
      · simp only [mem_cons] at hx
        rcases hx with rfl | rfl | hx
        · exact hmax x (by simp)
        · exact (not_le.mp hle).le.trans (hmax a (by simp))
        · exact hmax x (.tail a hx)

theorem maxByKey_spec (h : maxByKey key l = some m) : m ∈ l ∧ ∀ x ∈ l, key x ≤ key m := by
  cases l with
  | nil => simp [maxByKey] at h
  | cons a l =>
    cases h
    exact foldl_max_spec l a

theorem exists_maxByKey (key : α → β) (h : l ≠ []) : ∃ m, maxByKey key l = some m := by
  cases l with
  | nil => simp at h
  | cons a l => exact ⟨_, rfl⟩

theorem maxByKey_eq_of_same_members (hset : ∀ x, x ∈ l ↔ x ∈ l')
    (hu : ∀ x ∈ l, ∀ y ∈ l, key x = key y → x = y) : maxByKey key l = maxByKey key l' := by
  rcases eq_or_ne l [] with rfl | hne
  · have hnil : l' = [] := eq_nil_iff_forall_not_mem.mpr fun x hx => by simpa using (hset x).mpr hx
    rw [hnil]
  · obtain ⟨x, hx⟩ := exists_mem_of_ne_nil _ hne
    obtain ⟨m, hm⟩ := exists_maxByKey key hne
    obtain ⟨m', hm'⟩ := exists_maxByKey key (ne_nil_of_mem ((hset x).mp hx))
    obtain ⟨hmem, hmax⟩ := maxByKey_spec hm
    obtain ⟨hmem', hmax'⟩ := maxByKey_spec hm'
    have heq := le_antisymm (hmax' m ((hset m).mp hmem)) (hmax m' ((hset m').mpr hmem'))
    rw [hm, hm', hu m hmem m' ((hset m').mpr hmem') heq]

end

/-- `BLAKE3(node_id ‖ cid ‖ epoch)`. -/
def rendezvousScore (id cid : B32) (epoch : U64) : B32 :=
  blake3 (id.toBytes ++ cid.toBytes ++ epoch.toLeBytes)

/-- The winner a node computes: among the others it knows, and itself. -/
def winner (me : B32) (others : List B32) (cid : B32) (epoch : U64) : Option B32 :=
  maxByKey (fun id => rendezvousScore id cid epoch) (others ++ [me])

def elected (me : B32) (others : List B32) (cid : B32) (epoch : U64) : Bool :=
  winner me others cid epoch = some me

/-! ## What is decided by election -/

/-- Who holds pieces. -/
structure Provider where
  nodeId : B32
  pieceCount : Word 32
  pinned : Bool

/-- What a node goes by when it considers a repair. -/
structure RepairView where
  tombstoned : Bool
  /-- The number of sources of the generation, if it is held. -/
  generation : Option (Word 32)
  providers : List Provider
  isAlive : B32 → Bool
  pieceCount : ℕ
  hasContent : Bool
  pinned : Bool
  /-- Whether the content is still wanted, given whether someone pins it. -/
  wanted : Bool → Bool

namespace RepairView

/-- The live providers other than the node itself. -/
def live (me : B32) (view : RepairView) : List Provider :=
  view.providers.filter fun p => p.nodeId ≠ me ∧ view.isAlive p.nodeId

def known (me : B32) (view : RepairView) : ℕ :=
  view.pieceCount + ((view.live me).map fun p => p.pieceCount.val).sum

def capable (me : B32) (view : RepairView) : List B32 :=
  ((view.live me).filter fun p => 2 ≤ p.pieceCount.val ∨ p.pinned).map Provider.nodeId

def selfCapable (view : RepairView) : Bool := 2 ≤ view.pieceCount ∨ view.hasContent ∧ view.pinned

/-- The node has the content and no one else can mint. -/
def soleContent (me : B32) (view : RepairView) : Bool :=
  !view.selfCapable && (view.capable me).isEmpty && view.hasContent

/-- The node has the content, and the pieces elsewhere cannot restore it. -/
def contentRestorer (me : B32) (view : RepairView) (k : ℕ) : Bool :=
  view.hasContent && decide (view.known me < 2 * k)
    && !(view.live me).any fun p => k ≤ p.pieceCount.val

end RepairView

/-- How many pieces a node sets out to mint; `none` if it leaves the content to others or alone, or
the call panics. -/
def repairCid (me cid : B32) (view : RepairView) (now : U64) : Option ℕ :=
  if view.tombstoned then none
  else
    match view.generation with
    | none => none
    | some k =>
      match Erasure.targetPieces k.val with
      | none => none
      | some floor =>
        if floor ≤ view.known me ∨ view.wanted ((view.live me).any Provider.pinned)
          = false then none
        else if !view.selfCapable && !view.soleContent me && !view.contentRestorer me k.val
          then none
        else if !elected me (view.capable me) cid (epochOf now) && !view.contentRestorer me k.val
          then none
        else some (floor - view.known me)

/-! ## One winner -/

variable {me me' cid : B32} {others others' : List B32} {now now' : U64}

theorem winner_eq (hset : ∀ id, id ∈ others ++ [me] ↔ id ∈ others' ++ [me'])
    (huntied : ∀ a ∈ others ++ [me], ∀ b ∈ others ++ [me],
      rendezvousScore a cid (epochOf now) = rendezvousScore b cid (epochOf now) → a = b) (htick :
        SameTick now now') :
    winner me others cid (epochOf now) = winner me' others' cid (epochOf now') := by
  rw [← epochOf_eq_iff.mpr htick]
  exact maxByKey_eq_of_same_members hset huntied

theorem eq_of_elected
    (h : winner me others cid (epochOf now) = winner me' others' cid (epochOf now'))
    (h₁ : elected me others cid (epochOf now) = true)
    (h₂ : elected me' others' cid (epochOf now') = true) : me = me' :=
  Option.some.inj ((of_decide_eq_true h₁).symm.trans (h.trans (of_decide_eq_true h₂)))

/-- **Two nodes that elect from the same holders agree exactly when no epoch begins between their
clock readings** — epochs of the packed clock, less than half a millisecond long. -/
theorem one_winner_iff_same_tick (hset : ∀ id, id ∈ others ++ [me] ↔ id ∈ others' ++ [me'])
    (huntied : ∀ a ∈ others ++ [me], ∀ b ∈ others ++ [me],
      rendezvousScore a cid (epochOf now) = rendezvousScore b cid (epochOf now) → a = b) :
    (epochOf now = epochOf now'
        ∧ winner me others cid (epochOf now) = winner me' others' cid (epochOf now')
        ∧ (me ≠ me' → ¬ (elected me others cid (epochOf now) = true
          ∧ elected me' others' cid (epochOf now') = true)))
      ↔ SameTick now now' := by
  refine ⟨fun h => epochOf_eq_iff.mp h.1, fun h => ?_⟩
  have hwinner := winner_eq hset huntied h
  exact ⟨epochOf_eq_iff.mpr h, hwinner, fun hne ⟨h₁, h₂⟩ => hne (eq_of_elected hwinner h₁ h₂)⟩

theorem one_winner_iff_same_tick_twoNodes :
    (epochOf 5 = epochOf 17 ∧ winner 1 [2] 0 (epochOf 5) = winner 2 [1] 0 (epochOf 17)
        ∧ ((1 : B32) ≠ 2
          → ¬ (elected 1 [2] 0 (epochOf 5) = true ∧ elected 2 [1] 0 (epochOf 17) = true)))
      ↔ SameTick 5 17 := by
  have hset : ∀ id, id ∈ [(2 : B32)] ++ [1] ↔ id ∈ [(1 : B32)] ++ [2] := fun id => by
    simp [or_comm]
  have hne : rendezvousScore 1 0 (epochOf 5) ≠ rendezvousScore 2 0 (epochOf 5) := by decide +kernel
  refine one_winner_iff_same_tick hset fun a ha b hb hab => ?_
  simp only [cons_append, nil_append, mem_cons, not_mem_nil, or_false] at ha hb
  rcases ha with rfl | rfl <;> rcases hb with rfl | rfl
  · rfl
  · exact absurd hab.symm hne
  · exact absurd hab hne
  · rfl

/-- Who sets out to repair was elected, or restores the content from its own copy. -/
theorem elected_or_contentRestorer {view : RepairView} {n : ℕ}
    (h : repairCid me cid view now = some n) :
    elected me (view.capable me) cid (epochOf now) = true
      ∨ ∃ k ∈ view.generation, view.contentRestorer me k.val = true := by
  unfold repairCid at h
  split_ifs at h
  split at h
  · cases h
  · next k hk =>
    split at h
    · cases h
    · split_ifs at h with _ _ hstep
      simp only [Bool.and_eq_true, Bool.not_eq_true', not_and_or, Bool.not_eq_false] at hstep
      exact hstep.imp_right fun hr => ⟨k, hk, hr⟩

/-- **Two nodes set out to repair in one tick only if one of them restores the content**, which it
does whoever has won. -/
theorem restores_of_both_repair {view view' : RepairView} {n n' : ℕ} (hne : me ≠ me')
    (hset : ∀ id, id ∈ view.capable me ++ [me] ↔ id ∈ view'.capable me' ++ [me'])
    (huntied : ∀ a ∈ view.capable me ++ [me], ∀ b ∈ view.capable me ++ [me],
      rendezvousScore a cid (epochOf now) = rendezvousScore b cid (epochOf now) → a = b) (htick :
        SameTick now now')
    (h : repairCid me cid view now = some n) (h' : repairCid me' cid view' now' = some n') :
    (∃ k ∈ view.generation, view.contentRestorer me k.val = true)
      ∨ ∃ k ∈ view'.generation, view'.contentRestorer me' k.val = true := by
  rcases elected_or_contentRestorer h with he | hr
  · rcases elected_or_contentRestorer h' with he' | hr'
    · exact absurd (eq_of_elected (winner_eq hset huntied htick) he he') hne
    · exact .inr hr'
  · exact .inl hr

/-- **Two nodes elect themselves one millisecond apart.** -/
theorem two_winners_in_one_window :
    let now := Timestamp.fromParts 1 0
    let now' := Timestamp.fromParts 2 0
    Timestamp.millis now / healthEpochMs = Timestamp.millis now' / healthEpochMs
      ∧ elected 1 [2] 0 (epochOf now) = true ∧ elected 2 [1] 0 (epochOf now') = true := by
  decide +kernel

end Zephcraft.Obj
