import Zephcraft.Obj.Election
import Zephcraft.Foundations.Run

/-!
# Obj/Shed — shedding surplus pieces

A holder that finds more pieces of a content than the durability floor and a margin asks for may
drop one of its own. It asks every other holder for its count, elects one of those with pieces to
spare, and drops a piece if it is the one.
-/

namespace Zephcraft.Obj.Shed

open List Function Run

/-- A content and its holders: what shedding does not change. -/
structure Holding where
  k : ℕ
  k_pos : 0 < k
  cid : B32
  /-- The live nodes that have the generation. -/
  holders : List B32
  pinned : B32 → Bool
  hasContent : B32 → Bool

/-- A call of `shed_cid` under way. -/
structure Task where
  epoch : U64
  /-- The holders whose answer is awaited. -/
  waiting : List B32
  /-- Who answered, with which count, and whether it is pinned there. -/
  answers : List (B32 × ℕ × Bool)
  /-- Elected, with the removal still to come. -/
  won : Bool

/-- Each node's pieces and its task. -/
structure Fleet where
  count : B32 → ℕ
  task : B32 → Option Task

namespace Holding

def floor (H : Holding) : ℕ := Erasure.durabilityFloor H.k

theorem targetPieces_k (H : Holding) : Erasure.targetPieces H.k = some H.floor := if_pos H.k_pos

def delta (H : Holding) : ℕ := max (H.floor / 8) 2

def total (H : Holding) (f : Fleet) : ℕ := (H.holders.map f.count).sum

/-- The answer to an availability probe, as it is taken. -/
def answer (H : Holding) (f : Fleet) (peer : B32) : B32 × ℕ × Bool :=
  if 0 < f.count peer ∨ H.hasContent peer then (peer, f.count peer, H.pinned peer)
    else (peer, 0, false)

end Holding

/-- The loop over the answers: what is there, and who could shed. -/
def tally (own : ℕ) (answers : List (B32 × ℕ × Bool)) : ℕ × List B32 :=
  answers.foldl (fun acc a =>
    if a.2.1 = 0 ∧ a.2.2 = false then acc
    else (acc.1 + a.2.1, if 2 < a.2.1 ∧ a.2.2 = false then acc.2 ++ [a.1] else acc.2)) (own, [])

inductive Event where
  | start (me : B32) (now : U64) (providers : List B32)
  | probe (me peer : B32)
  | elect (me : B32) (cold : Bool)
  | remove (me : B32)

namespace Fleet

def setTask (f : Fleet) (me : B32) (task : Option Task) : Fleet :=
  { f with task := Function.update f.task me task }

variable (H : Holding)

/-- Up to the first `await`: nothing under a pin, nothing of the last two pieces. -/
def start (f : Fleet) (me : B32) (now : U64) (providers : List B32) : Fleet :=
  if me ∈ H.holders ∧ f.task me = none ∧ H.pinned me = false ∧ 2 < f.count me then
    f.setTask me (some ⟨epochOf now, providers.filter (· ≠ me), [], false⟩)
  else f

/-- One probe is answered, with what is there now. -/
def probe (f : Fleet) (me peer : B32) : Fleet :=
  match f.task me with
  | some t =>
    if peer ∈ t.waiting then
      f.setTask me (some { t with
        waiting := t.waiting.erase peer
        answers := t.answers ++ [H.answer f peer] })
    else f
  | none => f

/-- Does the node go on to remove a piece? -/
def wins (f : Fleet) (me : B32) (t : Task) (cold : Bool) : Bool :=
  let counted := tally (f.count me) t.answers
  cold && decide (H.floor + H.delta < counted.1) && decide (2 < f.count me)
    && elected me counted.2 H.cid t.epoch

/-- All answers are there: the verdict and the election. -/
def elect (f : Fleet) (me : B32) (cold : Bool) : Fleet :=
  match f.task me with
  | some t =>
    if t.waiting = [] ∧ t.won = false then
      f.setTask me (if wins H f me t cold then some { t with won := true } else none)
    else f
  | none => f

/-- `shed_one`. -/
def remove (f : Fleet) (me : B32) : Fleet :=
  match f.task me with
  | some t =>
    if t.won then ⟨Function.update f.count me (f.count me - 1), Function.update f.task me none⟩
      else f
  | none => f

def step (f : Fleet) : Event → Fleet
  | .start me now providers => f.start H me now providers
  | .probe me peer => f.probe H me peer
  | .elect me cold => f.elect H me cold
  | .remove me => f.remove me

end Fleet

/-! ## What the answers add up to -/

variable {H : Holding} {f : Fleet} {me peer : B32} {t : Task} {answers : List (B32 × ℕ × Bool)}

theorem tally_eq (own : ℕ) : tally own answers = (own + (answers.map fun a => a.2.1).sum,
    (answers.filter fun a => 2 < a.2.1 ∧ a.2.2 = false).map Prod.fst) := by
  suffices h : ∀ acc : ℕ × List B32, answers.foldl (fun acc a =>
      if a.2.1 = 0 ∧ a.2.2 = false then acc
      else (acc.1 + a.2.1, if 2 < a.2.1 ∧ a.2.2 = false then acc.2 ++ [a.1] else acc.2)) acc
      = (acc.1 + (answers.map fun a => a.2.1).sum,
        acc.2 ++ (answers.filter fun a => 2 < a.2.1 ∧ a.2.2 = false).map Prod.fst) from h (own, [])
  induction answers with
  | nil => simp
  | cons a answers ih =>
    intro acc
    rw [foldl_cons, ih, map_cons, sum_cons, filter_cons]
    by_cases hn : a.2.1 = 0 ∧ a.2.2 = false
    · simp [hn]
    · rw [if_neg hn]
      by_cases hs : 2 < a.2.1 ∧ a.2.2 = false
      · simp [hs, Nat.add_assoc]
      · simp [hs, Nat.add_assoc]

theorem answer_spec (H : Holding) (f : Fleet) (peer : B32) : (H.answer f peer).1 = peer
    ∧ (H.answer f peer).2.1 = f.count peer
    ∧ (0 < f.count peer → (H.answer f peer).2.2 = H.pinned peer) := by
  rw [Holding.answer]
  split_ifs with hhas
  · exact ⟨rfl, rfl, fun _ => rfl⟩
  · push Not at hhas
    exact ⟨rfl, (Nat.le_zero.mp hhas.1).symm, fun h => by omega⟩

/-! ## Sound tasks -/

/-- **An answer is of use to `me`**: the count is the present one, or its node is one that beats
`me` anyway. -/
def Useful (H : Holding) (e : U64) (count : B32 → ℕ) (me : B32) (a : B32 × ℕ × Bool) : Prop :=
  (2 < a.2.1 → a.2.2 = H.pinned a.1) ∧ (count a.1 = a.2.1 ∨ 2 < a.2.1 ∧ H.pinned a.1 = false
      ∧ rendezvousScore me H.cid e < rendezvousScore a.1 H.cid e)

/-- No one with pieces to spare beats `me`. -/
def Top (H : Holding) (e : U64) (count : B32 → ℕ) (me : B32) : Prop :=
  ∀ y ∈ H.holders, y ≠ me → H.pinned y = false → 2 < count y →
    rendezvousScore y H.cid e < rendezvousScore me H.cid e

/-- What a task of `me` in epoch `e` may rely on. -/
structure Sound (H : Holding) (e : U64) (count : B32 → ℕ) (me : B32) (t : Task) : Prop where
  holder : me ∈ H.holders
  unpinned : H.pinned me = false
  spare : 2 < count me
  epoch : t.epoch = e
  asked : (t.answers.map Prod.fst ++ t.waiting).Perm (H.holders.erase me)
  useful : ∀ a ∈ t.answers, Useful H e count me a
  won : t.won = true → Top H e count me ∧ H.floor + H.delta < (H.holders.map count).sum

/-- Above the floor, with sound tasks only. -/
structure Safe (H : Holding) (e : U64) (f : Fleet) : Prop where
  above : H.floor ≤ H.total f
  sound : ∀ me t, f.task me = some t → Sound H e f.count me t

/-- **A start is informed**: it falls into the epoch of the reading `t₀`, and the other holders are
all listed, once each. -/
def Informed (H : Holding) (t₀ : U64) : Event → Prop
  | .start me now providers => SameTick t₀ now
    ∧ (providers.filter (· ≠ me)).Perm (H.holders.erase me)
  | _ => True

variable {e : U64} {count : B32 → ℕ} {y : B32}

theorem score_le_of_wins {cold : Bool} (h : f.wins H me t cold = true) {a : B32 × ℕ × Bool}
    (ha : a ∈ t.answers) (hs : 2 < a.2.1) (hpin : a.2.2 = false) :
    rendezvousScore a.1 H.cid t.epoch ≤ rendezvousScore me H.cid t.epoch := by
  simp only [Fleet.wins, Bool.and_eq_true, elected, winner, decide_eq_true_eq, tally_eq] at h
  refine (maxByKey_spec h.2).2 a.1 (mem_append_left _ (mem_map.mpr ⟨a, ?_, rfl⟩))
  exact mem_filter.mpr ⟨ha, decide_eq_true ⟨hs, hpin⟩⟩

theorem lt_tally_of_wins {cold : Bool} (h : f.wins H me t cold = true) :
    H.floor + H.delta < f.count me + (t.answers.map fun a => a.2.1).sum := by
  simp only [Fleet.wins, Bool.and_eq_true, decide_eq_true_eq, tally_eq] at h
  exact h.1.1.2

namespace Sound

/-- **A winner has counted right**: an answer that is overtaken comes from a node that beats it. -/
theorem count_eq_of_wins {cold : Bool} (hs : Sound H e f.count me t) (h : f.wins H me t cold = true)
    {a : B32 × ℕ × Bool} (ha : a ∈ t.answers) : f.count a.1 = a.2.1 := by
  obtain ⟨hpin, heq | ⟨hsp, hu, hlt⟩⟩ := hs.useful a ha
  · exact heq
  · have hle := score_le_of_wins h ha hsp ((hpin hsp).trans hu)
    rw [hs.epoch] at hle
    exact absurd hlt (not_lt.mpr hle)

theorem of_wins {cold : Bool} (hs : Sound H e f.count me t) (hw : t.waiting = [])
    (hun : ∀ x ∈ H.holders, ∀ y ∈ H.holders,
      rendezvousScore x H.cid e = rendezvousScore y H.cid e → x = y)
    (h : f.wins H me t cold = true) :
    Top H e f.count me ∧ H.floor + H.delta < (H.holders.map f.count).sum := by
  have hask : (t.answers.map Prod.fst).Perm (H.holders.erase me) := by
    simpa [hw] using hs.asked
  constructor
  · intro y hy hne hu hsp
    obtain ⟨a, ha, rfl⟩ := mem_map.mp (hask.mem_iff.mpr ((mem_erase_of_ne hne).mpr hy))
    have heq := hs.count_eq_of_wins h ha
    rw [heq] at hsp
    have hle := score_le_of_wins h ha hsp (((hs.useful a ha).1 hsp).trans hu)
    rw [hs.epoch] at hle
    exact lt_of_le_of_ne hle fun htie => hne (hun _ hy _ hs.holder htie)
  · have hsum : (H.holders.map f.count).sum = f.count me + (t.answers.map fun a => a.2.1).sum := by
      rw [((perm_cons_erase hs.holder).map f.count).sum_eq, map_cons, sum_cons,
        ← (hask.map f.count).sum_eq, map_map]
      congr 2
      exact map_congr_left fun a ha => hs.count_eq_of_wins h ha
    rw [hsum]
    exact lt_tally_of_wins h

theorem probe (hs : Sound H e f.count me t) (hp : peer ∈ t.waiting) :
    Sound H e f.count me
      { t with waiting := t.waiting.erase peer, answers := t.answers ++ [H.answer f peer] } where
  holder := hs.holder
  unpinned := hs.unpinned
  spare := hs.spare
  epoch := hs.epoch
  asked := by
    refine .trans ?_ hs.asked
    rw [map_append, map_singleton, (answer_spec H f peer).1, append_assoc, singleton_append]
    exact (perm_cons_erase hp).symm.append_left _
  useful := by
    intro a ha
    rcases mem_append.mp ha with ha | ha
    · exact hs.useful a ha
    · obtain rfl := mem_singleton.mp ha
      obtain ⟨hid, hc, hpin⟩ := answer_spec H f peer
      rw [Useful, hid, hc]
      exact ⟨fun h => hpin (by omega), .inl rfl⟩
  won := hs.won

/-- **A removal by the top node leaves the others' tasks sound**: their answers about it are
overtaken, but it beats them; and none of them has won. -/
theorem of_remove (hs : Sound H e count y t) (hne : y ≠ me) (hme : me ∈ H.holders)
    (hu : H.pinned me = false) (hsp : 2 < count me) (htop : Top H e count me) :
    Sound H e (Function.update count me (count me - 1)) y t := by
  have hlt := htop y hs.holder hne hs.unpinned hs.spare
  exact {
    holder := hs.holder
    unpinned := hs.unpinned
    spare := by rw [update_of_ne hne]; exact hs.spare
    epoch := hs.epoch
    asked := hs.asked
    useful := by
      intro a ha
      obtain ⟨hpin, huse⟩ := hs.useful a ha
      refine ⟨hpin, ?_⟩
      rcases eq_or_ne a.1 me with heq | ho
      · rcases huse with hc | hb
        · rw [heq] at hc ⊢
          exact .inr ⟨by omega, hu, hlt⟩
        · exact .inr hb
      · rwa [update_of_ne ho]
    won := fun h => absurd hlt ((hs.won h).1 me hme hne.symm hu hsp).asymm }

end Sound

/-! ## The floor -/

theorem task_setTask {x : Option Task} (h : (f.setTask me x).task y = some t) :
    y = me ∧ x = some t ∨ y ≠ me ∧ f.task y = some t := by
  rcases eq_or_ne y me with rfl | hne
  · exact .inl ⟨rfl, by simpa [Fleet.setTask] using h⟩
  · exact .inr ⟨hne, by simpa [Fleet.setTask, hne] using h⟩

namespace Safe

theorem setTask (h : Safe H e f) {x : Option Task} (hx : ∀ t, x = some t → Sound H e f.count me t) :
    Safe H e (f.setTask me x) where
  above := h.above
  sound := by
    intro y t ht
    rcases task_setTask ht with ⟨rfl, hx'⟩ | ⟨-, ht⟩
    · exact hx t hx'
    · exact h.sound y t ht

theorem remove (h : Safe H e f) (hn : H.holders.Nodup) : Safe H e (f.remove me) := by
  rw [Fleet.remove]
  split
  case h_2 => exact h
  case h_1 t ht =>
    split_ifs with hwon
    case neg => exact h
    have hs := h.sound me t ht
    obtain ⟨htop, ha⟩ := hs.won hwon
    constructor
    · -- one piece of `me` is gone, and more than one was there above the floor
      have hr : ((H.holders.erase me).map (Function.update f.count me (f.count me - 1))).sum
          = ((H.holders.erase me).map f.count).sum := by
        refine congrArg List.sum (map_congr_left fun x hx => update_of_ne ?_ _ _)
        exact (hn.mem_erase_iff.mp hx).1
      have hp := perm_cons_erase hs.holder
      rw [(hp.map f.count).sum_eq, map_cons, sum_cons] at ha
      have hsp := hs.spare
      rw [Holding.total, (hp.map _).sum_eq, map_cons, sum_cons]
      dsimp only
      rw [update_self, hr]
      omega
    · intro y t' ht'
      dsimp only at ht' ⊢
      rcases eq_or_ne y me with rfl | hne
      · simp at ht'
      · rw [update_of_ne hne] at ht'
        exact (h.sound y t' ht').of_remove hne hs.holder hs.unpinned hs.spare htop

theorem step {t₀ : U64} (h : Safe H (epochOf t₀) f) (hn : H.holders.Nodup)
    (hu : ∀ x ∈ H.holders, ∀ y ∈ H.holders,
      rendezvousScore x H.cid (epochOf t₀) = rendezvousScore y H.cid (epochOf t₀) → x = y)
    (ev : Event) (hev : Informed H t₀ ev) : Safe H (epochOf t₀) (f.step H ev) := by
  cases ev with
  | start me now providers =>
    rw [Fleet.step, Fleet.start]
    split_ifs with hst
    · obtain ⟨hh, -, hpin, hsp⟩ := hst
      refine h.setTask fun t ht => ?_
      cases ht
      exact ⟨hh, hpin, hsp, (epochOf_eq_iff.mpr hev.1).symm, by simpa using hev.2, by simp, by simp⟩
    · exact h
  | probe me peer =>
    rw [Fleet.step, Fleet.probe]
    split
    case h_2 => exact h
    case h_1 t ht =>
      split_ifs with hp
      · refine h.setTask fun t' ht' => ?_
        cases ht'
        exact (h.sound me t ht).probe hp
      · exact h
  | elect me cold =>
    rw [Fleet.step, Fleet.elect]
    split
    case h_2 => exact h
    case h_1 t ht =>
      have hs := h.sound me t ht
      split_ifs with hr hw
      · refine h.setTask fun t' ht' => ?_
        cases ht'
        exact { hs with won := fun _ => hs.of_wins hr.1 hu hw }
      · exact h.setTask fun t' ht' => by cases ht'
      · exact h
  | remove me => exact h.remove hn

end Safe

/-- **Shedding stays above the floor when all starts are informed**, whatever the order of the
steps. -/
theorem floor_le_total_of_informed (t₀ : U64) {events : List Event} (hnodup : H.holders.Nodup)
    (huntied : ∀ x ∈ H.holders, ∀ y ∈ H.holders,
      rendezvousScore x H.cid (epochOf t₀) = rendezvousScore y H.cid (epochOf t₀) → x = y)
    (hidle : ∀ me, f.task me = none) (habove : H.floor ≤ H.total f)
    (hinformed : EachStep (Fleet.step H) f (fun _ ev => Informed H t₀ ev) events) :
    EachState (Fleet.step H) f (fun f => H.floor ≤ H.total f) events :=
  eachState_of_invariant (I := Safe H (epochOf t₀)) ⟨habove, fun me t ht =>
    by simp [hidle me] at ht⟩ (fun _ ev hsafe hev => hsafe.step hnodup huntied ev hev)
      (fun _ hsafe => hsafe.above) hinformed

/-- Seven holders of a content of one source, three pieces each. -/
def sevenHolders : Holding := ⟨1, one_pos, 0, [1, 2, 3, 4, 5, 6, 7], fun _ => false, fun _ => false⟩

def threeEach : Fleet := ⟨fun _ => 3, fun _ => none⟩

/-- A call up to the election, with everyone else listed and asked. -/
def survey (me : B32) (now : U64) : List Event :=
  .start me now sevenHolders.holders
    :: ((sevenHolders.holders.filter (· ≠ me)).map fun peer => .probe me peer)

theorem informed_survey {me : B32} {now t₀ : U64} (htick : SameTick t₀ now)
    (hperm : (sevenHolders.holders.filter (· ≠ me)).Perm (sevenHolders.holders.erase me)) :
    ∀ ev ∈ survey me now, Informed sevenHolders t₀ ev := by
  intro ev hev
  rcases mem_cons.mp hev with rfl | hev
  · exact ⟨htick, hperm⟩
  · obtain ⟨_, -, rfl⟩ := mem_map.mp hev
    trivial

/-- Two calls at a time, of which one is elected. -/
theorem floor_le_total_of_informed_twoShedders :
    let events :=
      survey 1 65536 ++ survey 2 65537 ++ [.elect 1 true, .elect 2 true, .remove 2, .remove 1]
    sevenHolders.total (run (Fleet.step sevenHolders) threeEach events) = 20
      ∧ EachState (Fleet.step sevenHolders) threeEach
        (fun f => sevenHolders.floor ≤ sevenHolders.total f) events := by
  have huntied : (sevenHolders.holders.map fun x => rendezvousScore x 0 (epochOf 65536)).Nodup := by
    decide +kernel
  refine ⟨by decide +kernel, floor_le_total_of_informed 65536 (by decide)
    (fun x hx y hy => inj_on_of_nodup_map huntied hx hy) (fun _ => rfl) (by decide +kernel) ?_⟩
  have hinformed :
      ∀ ev ∈ survey 1 65536 ++ survey 2 65537 ++ [.elect 1 true, .elect 2 true, .remove 2,
        .remove 1],
      Informed sevenHolders 65536 ev :=
    forall_mem_append.mpr ⟨forall_mem_append.mpr ⟨informed_survey (fun _ => Iff.rfl) (by decide),
        informed_survey (epochOf_eq_iff.mp (by decide +kernel)) (by decide)⟩, by simp [Informed]⟩
  exact fun pre ev hpre => hinformed ev (hpre.subset (by simp))

/-- **Four holders shed within five milliseconds**, each elected in an epoch of its own on a count
of twenty-one pieces; seventeen are left of the eighteen the floor asks for. -/
theorem four_shed_in_one_window :
    let events := survey 1 65536 ++ survey 2 131072 ++ survey 3 196608 ++ survey 4 327680
      ++ [.elect 1 true, .elect 2 true, .elect 3 true, .elect 4 true, .remove 1, .remove 2,
        .remove 3, .remove 4]
    [65536, 131072, 196608, 327680].map Timestamp.millis = [1, 2, 3, 5]
      ∧ sevenHolders.floor ≤ sevenHolders.total threeEach
      ∧ sevenHolders.total (run (Fleet.step sevenHolders) threeEach events)
        < sevenHolders.floor := by
  decide +kernel

end Zephcraft.Obj.Shed
