import Zephcraft.Foundations.Codec
import Zephcraft.Foundations.PriorityQueue
import Zephcraft.Foundations.Run

/-!
# Sched/Coordinator — the background job coordinator

Jobs wait in one queue, by priority and then by age, and the dispatcher starts them. Three things
hold it back: a clamp on how many run, a gauge of memory pressure, and a cap on how many of a class
run — which does not hold a slot free that nobody else could use.
-/

namespace Zephcraft.Sched

open List Run

/-- The least urgent first. -/
inductive Priority where
  | eviction
  | healthScan
  | distribution
  | encoding
  | repair
deriving DecidableEq

def Priority.rank : Priority → ℕ
  | eviction => 0
  | healthScan => 1
  | distribution => 2
  | encoding => 3
  | repair => 4

instance : LinearOrder Priority :=
  LinearOrder.lift' Priority.rank fun a b h => by cases a <;> cases b <;> first | rfl | cases h

theorem Priority.le_repair (p : Priority) : p ≤ repair := by
  cases p <;> decide

/-- What is limited together. -/
inductive JobClass where
  | repair
  | publish
  | distribute
  | scan
  | pushstate
  | reannounce
  | scale
  | eviction
  | other
deriving DecidableEq

namespace JobClass

def all : List JobClass :=
  [repair, publish, distribute, scan, pushstate, reannounce, scale, eviction, other]

theorem mem_all (c : JobClass) : c ∈ all := by
  cases c <;> decide

/-- The class of a job, by the start of its key. -/
def fromKey (key : Bytes) : JobClass :=
  if (ascii "repair:").isPrefixOf key || (ascii "reconcile:").isPrefixOf key then repair
  else if (ascii "scan:").isPrefixOf key then scan
  else if (ascii "publish:").isPrefixOf key then publish
  else if (ascii "pushstate:").isPrefixOf key then pushstate
  else if (ascii "reannounce").isPrefixOf key then reannounce
  else if (ascii "scale").isPrefixOf key then scale
  else if key = ascii "distribute_pending" then distribute
  else if key = ascii "eviction" then eviction
  else other

/-- How many of a class may run, unless it is set otherwise. -/
def defaultCap (concurrency : ℕ) : JobClass → ℕ
  | repair => max concurrency 1
  | publish | distribute => min (max concurrency 1) 4
  | scan => max (max concurrency 1 / 2) 1
  | pushstate | reannounce | scale | eviction | other => min (max concurrency 1) 2

end JobClass

/-- A waiting job. -/
structure QueuedJob where
  priority : Priority
  jobClass : JobClass
  seq : ℕ
  key : Bytes
  maxAttempts : ℕ
deriving DecidableEq

/-- Higher priority first; within a priority the earlier job. -/
def QueuedJob.order (j : QueuedJob) : Priorityᵒᵈ ×ₗ ℕ := toLex (OrderDual.toDual j.priority, j.seq)

theorem QueuedJob.priority_le_of_order_le {j j' : QueuedJob} (h : j.order ≤ j'.order) :
    j'.priority ≤ j.priority := by
  rcases Prod.Lex.le_iff.mp h with hlt | ⟨heq, -⟩
  · exact (OrderDual.toDual_lt_toDual.mp hlt).le
  · exact (OrderDual.toDual.injective heq).ge

abbrev JobQueue := PriorityQueue QueuedJob QueuedJob.order

/-- What the memory gauge is above. -/
structure Gauge where
  high : Bool
  critical : Bool

/-- The state of the coordinator. Of the jobs that run there are only the counters and the keys. -/
structure Coordinator where
  queue : JobQueue
  /-- The keys of the jobs that are queued or run. -/
  inflight : List Bytes
  /-- Jobs that have been counted as queued and are about to be. -/
  submitting : List QueuedJob
  seq : ℕ
  inFlight : ℕ
  activeCap : ℕ
  classInflight : JobClass → ℕ
  classCap : JobClass → ℕ
  classQueued : JobClass → ℕ

namespace Coordinator

def new (concurrency : ℕ) : Coordinator where
  queue := .empty
  inflight := []
  submitting := []
  seq := 0
  inFlight := 0
  activeCap := max concurrency 1
  classInflight _ := 0
  classCap c := c.defaultCap concurrency
  classQueued _ := 0

variable (s : Coordinator)

/-- Submit a job; a key that is queued or runs is coalesced. The job is counted here, and enqueued
below: the dispatcher may run in between. -/
def submit (key : Bytes) (priority : Priority) (maxAttempts : ℕ) : Bool × Coordinator :=
  if key ∈ s.inflight then (false, s)
  else
    let job : QueuedJob := ⟨priority, .fromKey key, s.seq, key, max maxAttempts 1⟩
    (true, { s with
      inflight := key :: s.inflight
      submitting := job :: s.submitting
      seq := s.seq + 1
      classQueued := Function.update s.classQueued job.jobClass (s.classQueued job.jobClass + 1) })

def enqueue (job : QueuedJob) : Coordinator :=
  if job ∈ s.submitting then
    { s with submitting := s.submitting.erase job, queue := s.queue.push job }
  else s

def setClassCap (c : JobClass) (cap : ℕ) : Coordinator :=
  { s with classCap := Function.update s.classCap c (max cap 1) }

def setActiveCap (n : ℕ) : Coordinator := { s with activeCap := max n 1 }

/-- Do fewer of the job's class run than may? -/
def underCap (j : QueuedJob) : Bool := s.classInflight j.jobClass < s.classCap j.jobClass

/-- The slot of a job that starts is counted here, before its task is spawned. -/
def reserve (j : QueuedJob) : Coordinator :=
  { s with
    inFlight := s.inFlight + 1
    classInflight := Function.update s.classInflight j.jobClass (s.classInflight j.jobClass + 1)
    classQueued := Function.update s.classQueued j.jobClass (s.classQueued j.jobClass - 1) }

/-- Is a job of some class queued, and the class below its cap? -/
def anyEligible : Bool :=
  JobClass.all.any fun c => 0 < s.classQueued c && s.classInflight c < s.classCap c

/-- The highest-priority job whose class is below its cap. -/
def walk : Option QueuedJob × Coordinator :=
  match PriorityQueue.popUntil s.underCap s.queue.items s.queue.sorted [] with
  | (some j, skipped, rest) => (some j, { s with queue := skipped.foldl .push rest }.reserve j)
  | (none, skipped, rest) => (none, { s with queue := skipped.foldl .push rest })

/-- One round of the dispatcher: the job that it starts. -/
def round (gauge : Option Gauge) : Option QueuedJob × Coordinator :=
  if s.activeCap ≤ s.inFlight then (none, s)
  else if gauge.any Gauge.critical then (none, s)
  else match s.queue.peek with
    | none => (none, s)
    | some head =>
      if gauge.any Gauge.high ∧ head.priority < .repair then (none, s)
      else if s.underCap head then (some head, { s with queue := s.queue.tail }.reserve head)
      else if s.anyEligible then s.walk
      else (some head,
        { s with queue := s.queue.tail }.reserve head)  -- no other class could use the slot

/-- `SlotGuard::drop`: what was reserved for a job is given back, with its key. -/
def dropGuard (j : QueuedJob) : Coordinator :=
  { s with
    inFlight := s.inFlight - 1
    classInflight := Function.update s.classInflight j.jobClass (s.classInflight j.jobClass - 1)
    inflight := s.inflight.erase j.key }

/-! ## Runs -/

inductive Event where
  | submit (key : Bytes) (priority : Priority) (maxAttempts : ℕ)
  | enqueue (job : QueuedJob)
  | dispatch (gauge : Option Gauge)
  | dropGuard (job : QueuedJob)
  | setClassCap (c : JobClass) (cap : ℕ)
  | setActiveCap (n : ℕ)

def step (s : Coordinator) : Event → Coordinator
  | .submit key priority maxAttempts => (s.submit key priority maxAttempts).2
  | .enqueue job => s.enqueue job
  | .dispatch gauge => (s.round gauge).2
  | .dropGuard job => s.dropGuard job
  | .setClassCap c cap => s.setClassCap c cap
  | .setActiveCap n => s.setActiveCap n

def ofClass (c : JobClass) (l : List QueuedJob) : ℕ := l.countP fun j => j.jobClass = c

/-- **The count of a class is right**: of the jobs that are queued or about to be. -/
def Counted (s : Coordinator) : Prop :=
  ∀ c, s.classQueued c = ofClass c s.queue.items + ofClass c s.submitting

variable {s}

@[simp] theorem ofClass_cons (c : JobClass) (j : QueuedJob) (l : List QueuedJob) :
    ofClass c (j :: l) = ofClass c l + if j.jobClass = c then 1 else 0 := by
  simp [ofClass, countP_cons]

theorem ofClass_perm {c : JobClass} {l l' : List QueuedJob} (h : l.Perm l') :
    ofClass c l = ofClass c l' :=
  h.countP_eq _

variable {j head : QueuedJob}

theorem update_add_one (f : JobClass → ℕ) (d c : JobClass) :
    Function.update f d (f d + 1) c = f c + if d = c then 1 else 0 := by
  by_cases h : d = c
  · subst h
    simp
  · simp [h, Ne.symm h]

theorem update_sub_one {f : JobClass → ℕ} {d c : JobClass} {n : ℕ}
    (hn : f c = n + if d = c then 1 else 0) :
    Function.update f d (f d - 1) c = n := by
  by_cases h : d = c
  · subst h
    simp_all
  · simp_all [Ne.symm h]

theorem Counted.reserve {queue : JobQueue} (h : s.Counted)
    (hq : (j :: queue.items).Perm s.queue.items) :
    ({ s with queue }.reserve j).Counted := by
  intro c
  have hc := h c
  rw [← ofClass_perm hq, ofClass_cons] at hc
  exact update_sub_one (hc.trans (Nat.add_right_comm _ _ _))

/-- What a round leaves: the queue without the job that starts, which is reserved for. -/
structure Leaves (s : Coordinator) (started : Option QueuedJob × Coordinator) (queue : JobQueue) :
    Prop where
  perm : (started.1.toList ++ queue.items).Perm s.queue.items
  state : started.2 = started.1.elim { s with queue } ({ s with queue }.reserve ·)

theorem Leaves.queue {started : Option QueuedJob × Coordinator} {queue : JobQueue}
    (h : s.Leaves started queue) :
    started.2.queue = queue := by
  rw [h.state]
  cases started.1 <;> rfl

theorem walk_spec (s : Coordinator) :
    s.walk.1 = s.queue.items.find? s.underCap ∧ ∃ queue, s.Leaves s.walk queue := by
  obtain ⟨hf, hp⟩ := PriorityQueue.popUntil_spec s.underCap s.queue.items s.queue.sorted []
  rw [walk]
  rcases hpop :
    PriorityQueue.popUntil s.underCap s.queue.items s.queue.sorted [] with ⟨_ | j, skipped,
      rest⟩ <;>
    rw [hpop] at hf hp
  · exact ⟨hf, _, (PriorityQueue.foldl_push_perm skipped rest).trans hp, rfl⟩
  · exact ⟨hf, _, ((PriorityQueue.foldl_push_perm skipped rest).cons j).trans hp, rfl⟩

theorem peek_eq_some (h : s.queue.peek = some head) :
    s.queue.items = head :: s.queue.tail.items := by
  obtain ⟨rest, hr⟩ := head?_eq_some_iff.mp h
  change s.queue.items = head :: s.queue.items.tail
  rw [hr, tail_cons]

theorem round_leaves (s : Coordinator) (gauge : Option Gauge) :
    ∃ queue, s.Leaves (s.round gauge) queue := by
  have hn : s.Leaves (none, s) s.queue := ⟨.refl _, rfl⟩
  rw [round]
  split
  · exact ⟨_, hn⟩
  split
  · exact ⟨_, hn⟩
  split
  · exact ⟨_, hn⟩
  · next head hp =>
    have hh : s.Leaves (some head, { s with queue := s.queue.tail }.reserve head) s.queue.tail :=
      ⟨.of_eq (peek_eq_some hp).symm, rfl⟩
    split
    · exact ⟨_, hn⟩
    split
    · exact ⟨_, hh⟩
    split
    · exact (walk_spec s).2
    · exact ⟨_, hh⟩

theorem round_perm (s : Coordinator) (gauge : Option Gauge) :
    ((s.round gauge).1.toList ++ (s.round gauge).2.queue.items).Perm s.queue.items := by
  obtain ⟨queue, h⟩ := round_leaves s gauge
  rw [h.queue]
  exact h.perm

theorem Counted.round (h : s.Counted) (gauge : Option Gauge) : (s.round gauge).2.Counted := by
  obtain ⟨queue, hl⟩ := round_leaves s gauge
  have hp := hl.perm
  rw [hl.state]
  cases hs : (s.round gauge).1 with
  | none =>
    rw [hs] at hp
    exact fun c => (h c).trans (by rw [← ofClass_perm hp]; rfl)
  | some j =>
    rw [hs] at hp
    exact h.reserve hp

theorem Counted.step (h : s.Counted) (e : Event) : (s.step e).Counted := by
  cases e with
  | submit key priority maxAttempts =>
    rw [Coordinator.step, submit]
    split
    · exact h
    · intro c
      refine (update_add_one s.classQueued _ c).trans ?_
      rw [h c, Nat.add_assoc, ← ofClass_cons]
  | enqueue job =>
    rw [Coordinator.step, enqueue]
    split
    · next hjob =>
      intro c
      have hp := ofClass_perm (c := c) (s.queue.push_perm job)
      have he := ofClass_perm (c := c) (perm_cons_erase hjob)
      rw [ofClass_cons] at hp he
      have hc := h c
      change s.classQueued c = ofClass c (s.queue.push job).items + ofClass c
        (s.submitting.erase job)
      omega
    · exact h
  | dispatch gauge => exact h.round gauge
  | dropGuard job => exact h
  | setClassCap c cap => exact h
  | setActiveCap n => exact h

theorem counted_run (concurrency : ℕ) (events : List Event) :
    (run step (new concurrency) events).Counted :=
  always (fun _ => rfl) fun _ e h => h.step e

/-! ## Pressure -/

def Pressed (gauge : Option Gauge) : Prop :=
  gauge.any Gauge.high = true ∧ gauge.any Gauge.critical = false

/-- What should hold under pressure: only a repair starts, and the other jobs stay queued. -/
structure OnlyRepair (s : Coordinator) (gauge : Option Gauge) : Prop where
  starts : ∀ j, (s.round gauge).1 = some j → .repair ≤ j.priority
  stay : ∀ j ∈ s.queue.items, j.priority < .repair → j ∈ (s.round gauge).2.queue.items

/-- When it does: the dispatcher is clamped, no repair is queued, one is whose class is below its
cap, or no other job's class is. -/
def Guarded (s : Coordinator) : Prop :=
  s.activeCap ≤ s.inFlight ∨ (∀ j ∈ s.queue.items, j.priority < .repair)
    ∨ (∃ j ∈ s.queue.items, j.priority = .repair ∧ s.underCap j)
    ∨ ∀ j ∈ s.queue.items, j.priority < .repair → ¬ s.underCap j
deriving Decidable

theorem Counted.anyEligible (h : s.Counted) (hj : j ∈ s.queue.items) (hcap : s.underCap j) :
    s.anyEligible = true := by
  refine any_eq_true.mpr ⟨j.jobClass, JobClass.mem_all _, ?_⟩
  have hpos : 0 < ofClass j.jobClass s.queue.items := countP_pos_iff.mpr ⟨j, hj, by simp⟩
  have hc := h j.jobClass
  rw [Bool.and_eq_true, decide_eq_true_eq]
  exact ⟨by omega, hcap⟩

theorem priority_le_head (h : s.queue.peek = some head) (hj : j ∈ s.queue.items) :
    j.priority ≤ head.priority := by
  have hs := s.queue.sorted
  rw [peek_eq_some h] at hs hj
  rcases mem_cons.mp hj with rfl | hj
  · exact le_rfl
  · exact QueuedJob.priority_le_of_order_le ((pairwise_cons.mp hs).1 j hj)

/-- **What starts under pressure** when a repair is at the head: the first job below its cap, if
there is one. -/
theorem round_of_pressed {gauge : Option Gauge} (hp : Pressed gauge)
    (hc : ¬ s.activeCap ≤ s.inFlight) (hh : s.queue.peek = some head) (hr : head.priority = .repair)
    (hs : (s.round gauge).1 = some j) :
    s.queue.items.find? s.underCap = some j ∨ j = head := by
  rw [round, if_neg hc, if_neg (by simp [hp.2]), hh] at hs
  dsimp only at hs
  rw [if_neg (by simp [hr])] at hs
  split at hs
  · exact .inr (Option.some.inj hs).symm
  split at hs
  · exact .inl ((walk_spec s).1 ▸ hs)
  · exact .inr (Option.some.inj hs).symm

theorem round_eq_find? (h : s.Counted) {gauge : Option Gauge} (hp : Pressed gauge)
    (hc : ¬ s.activeCap ≤ s.inFlight) (hh : s.queue.peek = some head) (hr : head.priority = .repair)
    (hf : s.queue.items.find? s.underCap = some j) :
    (s.round gauge).1 = some j := by
  rw [round, if_neg hc, if_neg (by simp [hp.2]), hh]
  dsimp only
  rw [if_neg (by simp [hr])]
  by_cases hcap : s.underCap head = true
  · rw [peek_eq_some hh, find?_cons_of_pos hcap] at hf
    rw [if_pos hcap]
    exact hf
  · have he := h.anyEligible (mem_of_find?_eq_some hf) (find?_some hf)
    rw [if_neg hcap, if_pos he, (walk_spec s).1, hf]

theorem onlyRepair_iff (h : s.Counted) {gauge : Option Gauge} (hp : Pressed gauge) :
    s.OnlyRepair gauge ↔ s.Guarded := by
  have hpe := round_perm s gauge
  by_cases hc : s.activeCap ≤ s.inFlight
  · refine iff_of_true ⟨fun j hj => ?_, fun j hj _ => ?_⟩ (.inl hc) <;> rw [round, if_pos hc] at *
    · cases hj
    · exact hj
  cases hh : s.queue.peek with
  | none =>
    have hnil : s.queue.items = [] := head?_eq_none_iff.mp hh
    refine iff_of_true ⟨fun j hj => ?_, fun j hj _ => ?_⟩ (.inr (.inl fun j hj => ?_))
    · rw [round, if_neg hc, if_neg (by simp [hp.2]), hh] at hj
      cases hj
    · rw [hnil] at hj
      cases hj
    · rw [hnil] at hj
      cases hj
  | some head =>
    by_cases hlow : head.priority < .repair
    · have hro : s.round gauge = (none, s) := by
        rw [round, if_neg hc, if_neg (by simp [hp.2]), hh]
        exact if_pos ⟨hp.1, hlow⟩
      refine iff_of_true ⟨fun j hj => ?_, fun j hj _ => ?_⟩
        (.inr (.inl fun j hj => (priority_le_head hh hj).trans_lt hlow))
      · rw [hro] at hj
        cases hj
      · rw [hro]
        exact hj
    have hre : head.priority = .repair := le_antisymm head.priority.le_repair (not_lt.mp hlow)
    have hmem : head ∈ s.queue.items := by simp [peek_eq_some hh]
    constructor
    · intro hon
      by_contra hop
      obtain ⟨-, -, hsa, ho⟩ : _ ∧ _ ∧ _ ∧ _ := by
        simpa only [Guarded, not_or] using hop
      push Not at hsa ho
      obtain ⟨r, hr, hlow, hcap⟩ := ho
      obtain ⟨j, hf⟩ := Option.isSome_iff_exists.mp (find?_isSome.mpr ⟨r, hr, hcap⟩)
      have hs := hon.starts j (round_eq_find? h hp hc hh hre hf)
      refine hsa j (mem_of_find?_eq_some hf) (le_antisymm j.priority.le_repair hs) ?_
      exact find?_some hf
    · intro hg
      have hs : ∀ j, (s.round gauge).1 = some j → .repair ≤ j.priority := by
        intro j hsta
        rcases round_of_pressed hp hc hh hre hsta with hf | rfl
        · have hj := find?_some hf
          have hjm := mem_of_find?_eq_some hf
          rcases hg with hcl | hn | ⟨r, hr, hrr, hcap⟩ | ho
          · exact absurd hcl hc
          · exact absurd (hn head hmem) hlow
          · rw [← hrr]
            exact QueuedJob.priority_le_of_order_le
              (PriorityQueue.rank_find?_le s.queue.sorted hf hr hcap)
          · exact not_lt.mp fun hjl => ho j hjm hjl hj
        · exact hre.ge
      refine ⟨hs, fun j hj hjl => ?_⟩
      rcases mem_append.mp (hpe.mem_iff.mpr hj) with hst | hq
      · exact absurd hjl (not_lt.mpr (hs j (Option.mem_toList.mp hst)))
      · exact hq

/-- **In every state a run of the coordinator comes to, only repair starts under high pressure
exactly when** it is guarded. -/
theorem only_repair_starts_iff (concurrency : ℕ) (events : List Event) (gauge : Option Gauge)
    (hpressed : Pressed gauge) :
    (run step (new concurrency) events).OnlyRepair gauge
      ↔ (run step (new concurrency) events).Guarded :=
  onlyRepair_iff (counted_run concurrency events) hpressed

/-- What the node sets: eight jobs once it has converged, two of them of the repair class. -/
def nodeSetup : List Event := [.setActiveCap 2, .setClassCap .repair 2, .setActiveCap 8]

def reconcile (seq : ℕ) (cid : String) : QueuedJob :=
  ⟨.repair, .repair, seq, ascii ("reconcile:" ++ cid), 1⟩

/-- The pass that distributes what is pending. -/
def distributePending (seq : ℕ) : QueuedJob :=
  ⟨.distribution, .distribute, seq, ascii "distribute_pending", 1⟩

def submitted (j : QueuedJob) : List Event := [.submit j.key j.priority j.maxAttempts, .enqueue j]

/-- Two reconciles start, one more waits with the distribution. -/
def threeReconciles : List Event :=
  nodeSetup ++ submitted (reconcile 0 "a") ++ submitted (reconcile 1 "b") ++ submitted
    (reconcile 2 "c") ++ submitted (distributePending 3) ++ [.dispatch none, .dispatch none]

/-- One reconcile starts, one waits: its class is below the cap. -/
theorem only_repair_starts_iff_oneRunning :
    (run step (new 8) (nodeSetup ++ submitted (reconcile 0 "a") ++ submitted (reconcile 1 "b")
      ++ submitted (distributePending 2) ++ [.dispatch none])).OnlyRepair (some ⟨true, false⟩) :=
  (only_repair_starts_iff 8 _ _ ⟨rfl, rfl⟩).mpr (by decide +kernel)

/-- **Two reconciles run, a third waits**: the distribution behind it starts under high pressure. -/
theorem routine_starts_under_pressure :
    ((run step (new 8) threeReconciles).round (some ⟨true, false⟩)).1 = some (distributePending 3)
      ∧ ¬ (run step (new 8) threeReconciles).OnlyRepair (some ⟨true, false⟩) := by
  have hround :
      ((run step (new 8) threeReconciles).round (some ⟨true, false⟩)).1
        = some (distributePending 3) := by
    decide +kernel
  exact ⟨hround, fun h => absurd (h.starts _ hround) (by decide)⟩

end Coordinator

end Zephcraft.Sched
