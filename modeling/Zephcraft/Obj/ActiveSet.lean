import Zephcraft.Foundations.OrderedMap
import Zephcraft.Foundations.Run
import Zephcraft.Foundations.Word

/-!
# Obj/ActiveSet — the choke on transfers

At most K distinct peers are worked with at a time. A peer that is active has a permit of a
semaphore, and the map of the active peers counts its guards. The semaphore and the map are not
changed together.
-/

namespace Zephcraft.Obj

open Run List Option Std.ExtTreeMap

/-- The choke with the calls under way: those of `enter` that wait for a permit, those that have
one, the permits on their way back, and the guards that are live. -/
structure ActiveSet where
  slots : ℕ
  active : BTreeMap B32 ℕ
  peak : ℕ
  waiting : List B32
  acquired : List B32
  returning : ℕ
  guards : List B32

inductive ChokeEvent where
  /-- `enter`, up to the semaphore. -/
  | enter (peer : B32)
  /-- A call of `enter` is given a permit. -/
  | acquire (peer : B32)
  /-- … and goes on with it under the lock. -/
  | proceed (peer : B32)
  /-- The future of a call of `enter` is dropped at the semaphore. -/
  | cancel (peer : B32)
  | tryEnter (peer : B32)
  | dropGuard (peer : B32)
  /-- A permit is dropped. -/
  | release

namespace ActiveSet

/-- A choke of `k` peers, and at least one. (`Semaphore::new` panics past `usize::MAX >> 3`
permits.) -/
def new (k : ℕ) : ActiveSet := ⟨max k 1, ∅, 0, [], [], 0, []⟩

variable (s : ActiveSet) (peer : B32)

/-- One guard more for an active peer. -/
def bump (refs : ℕ) : ActiveSet :=
  { s with active := s.active.insert peer (refs + 1), guards := peer :: s.guards }

/-- The first guard for a peer, which takes the permit. -/
def activate : ActiveSet :=
  let active := s.active.insert peer 1
  { s with active, peak := max s.peak active.size, guards := peer :: s.guards }

def enter : ActiveSet :=
  match s.active[peer]? with
  | some refs => s.bump peer refs
  | none => { s with waiting := peer :: s.waiting }

def acquire : ActiveSet :=
  if peer ∈ s.waiting ∧ 0 < s.slots then
    { s with slots := s.slots - 1, waiting := s.waiting.erase peer, acquired := peer :: s.acquired }
  else s

def proceed : ActiveSet :=
  if peer ∈ s.acquired then
    let s := { s with acquired := s.acquired.erase peer }
    match s.active[peer]? with
    | some refs =>
      { s.bump peer refs with returning := s.returning + 1 }  -- another call won the race
    | none => s.activate peer
  else s

def cancel : ActiveSet :=
  if peer ∈ s.acquired then
    { s with acquired := s.acquired.erase peer, returning := s.returning + 1 }
  else { s with waiting := s.waiting.erase peer }

def tryEnter : ActiveSet :=
  match s.active[peer]? with
  | some refs => s.bump peer refs
  | none => if 0 < s.slots then { s with slots := s.slots - 1 }.activate peer else s

def dropGuard : ActiveSet :=
  if peer ∈ s.guards then
    let s := { s with guards := s.guards.erase peer }
    match s.active[peer]? with
    | some refs =>
      if refs - 1 = 0 then { s with active := s.active.erase peer, returning := s.returning + 1 }
      else { s with active := s.active.insert peer (refs - 1) }
    | none => s
  else s

def release : ActiveSet :=
  if 0 < s.returning then { s with returning := s.returning - 1, slots := s.slots + 1 } else s

def step (s : ActiveSet) : ChokeEvent → ActiveSet
  | .enter peer => s.enter peer
  | .acquire peer => s.acquire peer
  | .proceed peer => s.proceed peer
  | .cancel peer => s.cancel peer
  | .tryEnter peer => s.tryEnter peer
  | .dropGuard peer => s.dropGuard peer
  | .release => s.release

/-- The permits that are neither free nor with an active peer. -/
def inTransit : ℕ := s.acquired.length + s.returning

/-- **Permits are conserved, and an active peer counts its guards.** -/
structure Conserved (k : ℕ) (s : ActiveSet) : Prop where
  permits : s.active.size + s.slots + s.inTransit = max k 1
  refs : ∀ peer, s.active[peer]? = if s.guards.count peer = 0 then none
    else some (s.guards.count peer)

variable {s peer} {k refs : ℕ}

theorem contains_eq : s.active.contains peer = s.active[peer]?.isSome :=
  contains_eq_isSome_getElem?

theorem Conserved.some_iff (h : s.Conserved k) :
    s.active[peer]? = some refs ↔ 0 < refs ∧ s.guards.count peer = refs := by
  rw [h.refs]
  split <;> simp <;> omega

theorem Conserved.none_iff (h : s.Conserved k) :
    s.active[peer]? = none ↔ s.guards.count peer = 0 := by
  rw [h.refs]
  split <;> simp_all

/-- What a guard more for `peer` leaves of the counts. -/
theorem Conserved.refs_insert (h : s.Conserved k) (hr : s.guards.count peer = refs) (p : B32) :
    (s.active.insert peer (refs + 1))[p]?
      = if (peer :: s.guards).count p = 0 then none else some ((peer :: s.guards).count p) := by
  rw [BTreeMap.getElem?_insert, count_cons]
  by_cases hp : peer = p
  · subst hp
    simp [hr]
  · simp [hp, h.refs]

theorem Conserved.bump (h : s.Conserved k) (hp : s.active[peer]? = some refs) :
    (s.bump peer refs).Conserved k := by
  refine ⟨?_, h.refs_insert (h.some_iff.mp hp).2⟩
  have hs : (s.active.insert peer (refs + 1)).size = s.active.size := by
    rw [size_insert, contains_eq, hp, isSome_some, if_pos rfl]
  change (s.active.insert peer (refs + 1)).size + s.slots + s.inTransit = _
  rw [hs]
  exact h.permits

/-- A peer is activated with a permit that was taken for it. -/
theorem Conserved.activate {t : ActiveSet} (h : s.Conserved k) (ha : t.active = s.active)
    (hg : t.guards = s.guards) (ht : t.slots + t.inTransit + 1 = s.slots + s.inTransit)
    (hp : s.active[peer]? = none) : (t.activate peer).Conserved k := by
  constructor
  · have hs : (t.active.insert peer 1).size = s.active.size + 1 := by
      rw [ha, size_insert, contains_eq, hp, isSome_none, if_neg Bool.false_ne_true]
    have hpe := h.permits
    change (t.active.insert peer 1).size + t.slots + t.inTransit = _
    omega
  · intro p
    change (t.active.insert peer 1)[p]? = if (peer :: t.guards).count p = 0 then none
      else some ((peer :: t.guards).count p)
    rw [ha, hg]
    exact h.refs_insert (h.none_iff.mp hp) p

theorem Conserved.enter (h : s.Conserved k) (peer : B32) : (s.enter peer).Conserved k := by
  unfold ActiveSet.enter
  split
  next hp => exact h.bump hp
  next => exact ⟨h.permits, h.refs⟩

theorem Conserved.acquire (h : s.Conserved k) (peer : B32) : (s.acquire peer).Conserved k := by
  unfold ActiveSet.acquire
  split
  next hs =>
    refine ⟨?_, h.refs⟩
    have hp := h.permits
    simp only [inTransit, length_cons] at hp ⊢
    omega
  next => exact h

theorem Conserved.cancel (h : s.Conserved k) (peer : B32) : (s.cancel peer).Conserved k := by
  unfold ActiveSet.cancel
  split
  next ha =>
    refine ⟨?_, h.refs⟩
    have hp := h.permits
    have hlen := length_erase_add_one ha
    simp only [inTransit] at hp ⊢
    omega
  next => exact ⟨h.permits, h.refs⟩

theorem Conserved.proceed (h : s.Conserved k) (peer : B32) : (s.proceed peer).Conserved k := by
  unfold ActiveSet.proceed
  split
  next ha =>
    have hlen := length_erase_add_one ha
    dsimp only
    split
    next refs hp =>
      -- the permit is redundant: it stays in transit, on its way back
      have hb := h.bump hp
      refine ⟨?_, hb.refs⟩
      have hpe := hb.permits
      simp only [ActiveSet.bump, inTransit] at hpe ⊢
      omega
    next hp =>
      refine h.activate rfl rfl ?_ hp
      simp only [inTransit]
      omega
  next => exact h

theorem Conserved.tryEnter (h : s.Conserved k) (peer : B32) : (s.tryEnter peer).Conserved k := by
  unfold ActiveSet.tryEnter
  split
  next hp => exact h.bump hp
  next hp =>
    split
    next hs =>
      refine h.activate rfl rfl ?_ hp
      simp only [inTransit]
      omega
    next => exact h

/-- What a guard less for `peer` leaves of the counts. -/
theorem Conserved.refs_erase (h : s.Conserved k) {p : B32} (hp : p ≠ peer) :
    s.active[p]? = if (s.guards.erase peer).count p = 0 then none
      else some ((s.guards.erase peer).count p) := by
  rw [count_erase_of_ne hp]
  exact h.refs p

theorem Conserved.dropGuard (h : s.Conserved k) (peer : B32) : (s.dropGuard peer).Conserved k := by
  unfold ActiveSet.dropGuard
  split
  next hg =>
    have hc : 0 < s.guards.count peer := count_pos_iff.mpr hg
    have hpee : s.active[peer]? = some (s.guards.count peer) := h.some_iff.mpr ⟨hc, rfl⟩
    have hpe := h.permits
    simp only [hpee]
    split
    next hl =>
      constructor
      · have hs : (s.active.erase peer).size = s.active.size - 1 := by
          rw [size_erase, contains_eq, hpee, isSome_some, if_pos rfl]
        have hpos : s.active.size ≠ 0 :=
          fun hs => by simp [eq_empty_iff_size_eq_zero.mpr hs] at hpee
        simp only [inTransit, hs] at hpe ⊢
        omega
      · intro p
        rw [getElem?_erase]
        by_cases hp : p = peer
        · simp [hp, hl]
        · rw [if_neg (by simpa using Ne.symm hp)]
          exact h.refs_erase hp
    next hm =>
      constructor
      · have hs : (s.active.insert peer (s.guards.count peer - 1)).size = s.active.size := by
          rw [size_insert, contains_eq, hpee, isSome_some, if_pos rfl]
        simp only [inTransit, hs] at hpe ⊢
        exact hpe
      · intro p
        rw [BTreeMap.getElem?_insert]
        by_cases hp : p = peer
        · simp [hp, hm]
        · rw [if_neg (Ne.symm hp)]
          exact h.refs_erase hp
  next => exact h

theorem Conserved.release (h : s.Conserved k) : s.release.Conserved k := by
  unfold ActiveSet.release
  split
  next hr =>
    refine ⟨?_, h.refs⟩
    have hp := h.permits
    simp only [inTransit] at hp ⊢
    omega
  next => exact h

theorem Conserved.step (h : s.Conserved k) : ∀ e, (s.step e).Conserved k
  | .enter peer => h.enter peer
  | .acquire peer => h.acquire peer
  | .cancel peer => h.cancel peer
  | .proceed peer => h.proceed peer
  | .tryEnter peer => h.tryEnter peer
  | .dropGuard peer => h.dropGuard peer
  | .release => h.release

theorem conserved_new (k : ℕ) : (new k).Conserved k := by
  refine ⟨?_, fun peer => ?_⟩ <;> simp [new, inTransit]

/-- Along every run of the choke. -/
theorem conserved_run (k : ℕ) (es : List ChokeEvent) : (run step (new k) es).Conserved k :=
  always (conserved_new k) fun _ e h => h.step e

/-- Without a live guard no peer is active. -/
theorem Conserved.active_empty (h : s.Conserved k) (hg : s.guards = []) : s.active = ∅ :=
  Std.ExtTreeMap.ext_getElem? fun peer => by simp [h.refs, hg]

/-- **The choke bounds the distinct peers**: after every run at most `max k 1` of them are active,
each with as many references as it has live guards, and the active peers, the free permits and the
permits in transit are `max k 1` in all. With no guard live no peer is active, and the permits that
are not in transit are free. -/
theorem choke_bounds (k : ℕ) (es : List ChokeEvent) :
    let s := run step (new k) es
    s.active.size ≤ max k 1 ∧ (∀ peer, s.active[peer]? = if s.guards.count peer = 0 then none
        else some (s.guards.count peer)) ∧ s.active.size + s.slots + s.inTransit = max k 1
      ∧ (s.guards = [] → s.active = ∅ ∧ s.slots + s.inTransit = max k 1) := by
  intro s
  have h : s.Conserved k := conserved_run k es
  have hpermits := h.permits
  refine ⟨by omega, h.refs, hpermits, fun hguards => ?_⟩
  have hactive := h.active_empty hguards
  rw [hactive, size_empty, zero_add] at hpermits
  exact ⟨hactive, hpermits⟩

/-- A call that was given the only permit has no guard yet, and the permit is not free. -/
theorem acquired_not_free :
    (run step (new 1) [.enter 7, .acquire 7]).guards = []
      ∧ (run step (new 1) [.enter 7, .acquire 7]).slots ≠ max 1 1 := by
  decide +kernel

end ActiveSet

end Zephcraft.Obj
