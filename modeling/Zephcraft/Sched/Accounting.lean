import Zephcraft.Sched.Coordinator

/-!
# Sched/Accounting — which job starts, and what is counted of it

The dispatcher takes the head of the queue, or walks to the first job whose class is below its cap;
which of the two it does is decided on counters. A slot is reserved where a job starts and given
back by a guard on another task, however that task ends: the counters are compared with a history of
what started and what ended.
-/

namespace Zephcraft.Sched

open List Option QueuedJob Gauge

/-- The job is not after the other: by priority, and within one by age. -/
def QueuedJob.Precedes (j j' : QueuedJob) : Prop :=
  j'.priority < j.priority ∨ j'.priority = j.priority ∧ j.seq ≤ j'.seq

theorem QueuedJob.precedes_of_order_le {j j' : QueuedJob} (h : j.order ≤ j'.order) :
    j.Precedes j' := by
  rcases Prod.Lex.le_iff.mp h with hlt | ⟨heq, hle⟩
  · exact .inl (OrderDual.toDual_lt_toDual.mp hlt)
  · exact .inr ⟨(OrderDual.toDual.injective heq).symm, hle⟩

namespace Coordinator

variable {s : Coordinator} {j head : QueuedJob} {gauge : Option Gauge}

/-! ## The job that starts -/

/-- **The right job starts**: the first of those below their cap, or the first of all if there is
none, and the rest stays queued. -/
structure Picks (s : Coordinator) (gauge : Option Gauge) (j : QueuedJob) : Prop where
  starts : (s.round gauge).1 = some j
  rest : (j :: (s.round gauge).2.queue.items).Perm s.queue.items
  capped : (∃ q ∈ s.queue.items, s.underCap q) → s.underCap j
  first : ∀ q ∈ s.queue.items, s.underCap q ∨ ¬ s.underCap j → j.Precedes q

theorem anyEligible_iff (hc : ∀ c, s.classQueued c = ofClass c s.queue.items) :
    s.anyEligible = true ↔ ∃ q ∈ s.queue.items, s.underCap q = true := by
  simp only [anyEligible, List.any_eq_true, Bool.and_eq_true, decide_eq_true_eq, hc]
  constructor
  · rintro ⟨c, -, hpos, hcap⟩
    obtain ⟨q, hq, rfl⟩ : ∃ q ∈ s.queue.items, q.jobClass = c := by simpa [ofClass] using hpos
    exact ⟨q, hq, decide_eq_true hcap⟩
  · rintro ⟨q, hq, hcap⟩
    exact ⟨q.jobClass, JobClass.mem_all _, countP_pos_iff.mpr ⟨q, hq, by simp⟩,
      of_decide_eq_true hcap⟩

theorem round_starts (hc : ∀ c, s.classQueued c = ofClass c s.queue.items)
    (hcl : s.inFlight < s.activeCap) (hhi : gauge.any high = false)
    (hcr : gauge.any critical = false) (hh : s.queue.peek = some head) :
    (s.round gauge).1 = some ((s.queue.items.find? s.underCap).getD head) := by
  rw [round, if_neg (not_le.mpr hcl), if_neg (by simp [hcr]), hh]
  dsimp only
  rw [if_neg (by simp [hhi])]
  by_cases hcap : s.underCap head = true
  · rw [if_pos hcap, peek_eq_some hh, find?_cons_of_pos hcap, getD_some]
  rw [if_neg hcap]
  cases hf : s.queue.items.find? s.underCap with
  | some j =>
    have he := (anyEligible_iff hc).mpr ⟨j, mem_of_find?_eq_some hf, find?_some hf⟩
    rw [if_pos he, (walk_spec s).1, hf, getD_some]
  | none =>
    have hn : ¬ s.anyEligible = true := fun he => by
      obtain ⟨q, hq, hqc⟩ := (anyEligible_iff hc).mp he
      exact find?_eq_none.mp hf q hq hqc
    rw [if_neg hn, getD_none]

/-- **A round on a queue that is not empty starts the right job**, where neither the clamp nor
memory holds it back. -/
theorem dispatch_picks (s : Coordinator) (gauge : Option Gauge)
    (hcount : ∀ c, s.classQueued c = ofClass c s.queue.items) (hclamp : s.inFlight < s.activeCap)
    (hhigh : gauge.any high = false) (hcritical : gauge.any critical = false)
    (hne : s.queue.items ≠ []) : ∃ j, s.Picks gauge j := by
  obtain ⟨head, tail, hitems⟩ := exists_cons_of_ne_nil hne
  have hhead : s.queue.peek = some head := by rw [PriorityQueue.peek, hitems, head?_cons]
  have hstarts := round_starts hcount hclamp hhigh hcritical hhead
  have hperm := round_perm s gauge
  rw [hstarts] at hperm
  cases hfind : s.queue.items.find? s.underCap with
  | some j =>
    rw [hfind] at hstarts hperm
    have hcap : s.underCap j = true := find?_some hfind
    refine ⟨j, hstarts, hperm, fun _ => hcap, fun q hq hor => precedes_of_order_le ?_⟩
    exact PriorityQueue.rank_find?_le s.queue.sorted hfind hq (hor.resolve_right (not_not.mpr hcap))
  | none =>
    rw [hfind] at hstarts hperm
    refine ⟨head, hstarts, hperm, fun ⟨q, hq, hcap⟩ => absurd hcap (find?_eq_none.mp hfind q hq),
      fun q hq _ => ?_⟩
    have hsorted := s.queue.sorted
    rw [hitems] at hsorted hq
    refine precedes_of_order_le ?_
    rcases mem_cons.mp hq with rfl | hq
    · exact le_rfl
    · exact (pairwise_cons.mp hsorted).1 q hq

/-- Two reconciles run, which is all that may, and a third waits with the distribution. -/
theorem dispatch_picks_distribution : ∃ j, (Run.run step (new 8) threeReconciles).Picks none j := by
  refine dispatch_picks _ none (fun c => ?_) (by decide +kernel) rfl rfl (by decide +kernel)
  have hsubmitting : (Run.run step (new 8) threeReconciles).submitting = [] := by decide +kernel
  have hcount := counted_run 8 threeReconciles c
  rwa [hsubmitting] at hcount

/-! ## The accounts -/

/-- **The accounts are right**, where these jobs run. -/
structure Accounted (s : Coordinator) (running : List QueuedJob) : Prop where
  submitting : s.submitting = []
  inFlight : s.inFlight = running.length
  classInflight : ∀ c, s.classInflight c = ofClass c running
  classQueued : ∀ c, s.classQueued c = ofClass c s.queue.items
  keys : s.inflight.Perm ((s.queue.items ++ running).map QueuedJob.key)
  nodup : s.inflight.Nodup

variable {running : List QueuedJob}

theorem sum_ofClass (l : List QueuedJob) :
    (JobClass.all.map fun c => ofClass c l).sum = l.length := by
  induction l with
  | nil => rfl
  | cons j l ih =>
    rw [length_cons, ← ih]
    cases hj : j.jobClass <;> simp [JobClass.all, hj] <;> omega

theorem Accounted.submit (h : s.Accounted running) {key : Bytes} (priority : Priority)
    (maxAttempts : ℕ) (hkey : key ∉ s.inflight) :
    ((s.submit key priority maxAttempts).2.enqueue
      ⟨priority, .fromKey key, s.seq, key, max maxAttempts 1⟩).Accounted running := by
  rw [Coordinator.submit, if_neg hkey, enqueue, if_pos mem_cons_self]
  have hp := s.queue.push_perm ⟨priority, .fromKey key, s.seq, key, max maxAttempts 1⟩
  refine ⟨?_, h.inFlight, h.classInflight, fun c => ?_, ?_, nodup_cons.mpr ⟨hkey, h.nodup⟩⟩
  · exact (erase_cons_head _ _).trans h.submitting
  · refine (update_add_one s.classQueued _ c).trans ?_
    rw [h.classQueued, ← ofClass_cons, ofClass_perm hp]
  · exact (h.keys.cons key).trans ((hp.append_right running).map QueuedJob.key).symm

theorem Accounted.reserve {queue : JobQueue} (h : s.Accounted running)
    (hq : (j :: queue.items).Perm s.queue.items) :
    ({ s with queue }.reserve j).Accounted (j :: running) := by
  refine ⟨h.submitting, congrArg (· + 1) h.inFlight, fun c => ?_, fun c => ?_, ?_, h.nodup⟩
  · refine (update_add_one s.classInflight _ c).trans ?_
    rw [h.classInflight, ofClass_cons]
  · refine update_sub_one ?_
    rw [h.classQueued, ← ofClass_perm hq, ofClass_cons]
    rfl
  · refine h.keys.trans (.map _ ?_)
    exact (hq.symm.append_right running).trans perm_middle.symm

theorem Accounted.round (h : s.Accounted running) (gauge : Option Gauge) :
    (s.round gauge).2.Accounted ((s.round gauge).1.toList ++ running) := by
  obtain ⟨queue, hl⟩ := round_leaves s gauge
  have hp := hl.perm
  rw [hl.state]
  cases hs : (s.round gauge).1 with
  | none =>
    rw [hs] at hp
    refine ⟨h.submitting, h.inFlight, h.classInflight, fun c => ?_, ?_, h.nodup⟩
    · exact (h.classQueued c).trans (ofClass_perm hp).symm
    · exact h.keys.trans ((hp.symm.append_right _).map _)
  | some j =>
    rw [hs] at hp
    exact h.reserve hp

theorem Accounted.dropGuard (h : s.Accounted running) (hj : j ∈ running) :
    (s.dropGuard j).Accounted (running.erase j) := by
  have he := perm_cons_erase hj
  refine ⟨h.submitting, ?_, fun c => ?_, h.classQueued, ?_, h.nodup.erase j.key⟩
  · have hl := he.length_eq
    rw [length_cons, ← h.inFlight] at hl
    exact Nat.sub_eq_of_eq_add hl
  · refine update_sub_one ?_
    rw [h.classInflight, ofClass_perm he, ofClass_cons]
  · have hk := h.keys.trans (((he.append_left s.queue.items).trans perm_middle).map QueuedJob.key)
    rw [map_cons] at hk
    simpa [Coordinator.dropGuard] using hk.erase j.key

end Coordinator

/-! ## Runs -/

/-- The coordinator, and the tasks of `run_job` that have not returned, with the attempts each has
made. -/
structure Scheduler where
  coordinator : Coordinator
  tasks : List QueuedJob
  attempts : QueuedJob → ℕ

/-- How an attempt of a job ends. -/
inductive Outcome where
  | ok
  | error
  | panic
deriving DecidableEq

namespace Scheduler

def new (concurrency : ℕ) : Scheduler := ⟨.new concurrency, [], fun _ => 0⟩

variable (s : Scheduler)

def submit (key : Bytes) (priority : Priority) (maxAttempts : ℕ) : Scheduler :=
  match s.coordinator.submit key priority maxAttempts with
  | (false, _) => s
  | (true, coordinator) =>
    let job : QueuedJob := ⟨priority, .fromKey key, s.coordinator.seq, key, max maxAttempts 1⟩
    { s with coordinator := coordinator.enqueue job }

/-- The job that the dispatcher takes is spawned as a task. -/
def dispatch (gauge : Option Gauge) : Scheduler :=
  let (job, coordinator) := s.coordinator.round gauge
  { s with coordinator, tasks := job.toList ++ s.tasks }

/-- The task of a job returns or unwinds: its guard is dropped. -/
def leave (job : QueuedJob) : Scheduler :=
  { s with coordinator := s.coordinator.dropGuard job, tasks := s.tasks.erase job }

/-- One round of `run_job`: an attempt that fails is made again, while there are attempts left. -/
def attempt (job : QueuedJob) (outcome : Outcome) : Scheduler :=
  if job ∈ s.tasks then
    let attempt := s.attempts job + 1
    let s := { s with attempts := Function.update s.attempts job attempt }
    match outcome with
    | .ok => s.leave job
    | .panic => s.leave job
    | .error => if job.maxAttempts ≤ attempt then s.leave job else s
  else s

inductive Event where
  | submit (key : Bytes) (priority : Priority) (maxAttempts : ℕ)
  | dispatch (gauge : Option Gauge)
  | attempt (job : QueuedJob) (outcome : Outcome)
  | setClassCap (c : JobClass) (cap : ℕ)
  | setActiveCap (n : ℕ)

def step (s : Scheduler) : Event → Scheduler
  | .submit key priority maxAttempts => s.submit key priority maxAttempts
  | .dispatch gauge => s.dispatch gauge
  | .attempt job outcome => s.attempt job outcome
  | .setClassCap c cap => { s with coordinator := s.coordinator.setClassCap c cap }
  | .setActiveCap n => { s with coordinator := s.coordinator.setActiveCap n }

end Scheduler

/-! ## What is seen of a run

The history knows nothing of the scheduler's state: only what the dispatcher starts, and how
attempts end. -/

/-- The jobs that were dispatched, the attempts that were made of them, and those that came to an
end. -/
structure History where
  dispatched : Multiset QueuedJob
  tried : List QueuedJob
  ended : Multiset QueuedJob

namespace History

/-- Dispatched and not ended. -/
def unfinished (h : History) : Multiset QueuedJob := h.dispatched - h.ended

/-- An attempt that succeeds, one that panics and the last one that is allowed end the job. -/
def attempt (h : History) (job : QueuedJob) (outcome : Outcome) : History :=
  if job ∈ h.unfinished then
    { h with
      tried := job :: h.tried
      ended :=
        if outcome = .error ∧ h.tried.count job + 1 < job.maxAttempts then h.ended
          else job ::ₘ h.ended }
  else h

def watch (s : Scheduler) (h : History) : Scheduler.Event → History
  | .dispatch gauge => { h with dispatched := ↑(s.coordinator.round gauge).1.toList + h.dispatched }
  | .attempt job outcome => h.attempt job outcome
  | _ => h

/-- The scheduler runs, and is watched. -/
def step (p : Scheduler × History) (e : Scheduler.Event) : Scheduler × History :=
  (p.1.step e, p.2.watch p.1 e)

/-- **The history tells what runs**: a task for each job that has not ended, with its attempts, and
the accounts of those. -/
structure Tells (h : History) (s : Scheduler) : Prop where
  tasks : h.dispatched = ↑s.tasks + h.ended
  attempts : ∀ job, s.attempts job = h.tried.count job
  accounted : s.coordinator.Accounted s.tasks

variable {h : History} {s : Scheduler}

theorem Tells.unfinished (ht : h.Tells s) : h.unfinished = ↑s.tasks := by
  rw [History.unfinished, ht.tasks, add_tsub_cancel_right]

theorem Tells.leave (ht : h.Tells s) {job : QueuedJob} (hj : job ∈ s.tasks) (tried : List QueuedJob)
    {attempts : QueuedJob → ℕ} (ha : ∀ job, attempts job = tried.count job) :
    Tells ⟨h.dispatched, tried, job ::ₘ h.ended⟩ ({ s with attempts }.leave job) := by
  refine ⟨?_, ha, ht.accounted.dropGuard hj⟩
  have hcons : (↑s.tasks : Multiset QueuedJob) = job ::ₘ ↑(s.tasks.erase job) :=
    Multiset.coe_eq_coe.mpr (perm_cons_erase hj)
  change h.dispatched = ↑(s.tasks.erase job) + job ::ₘ h.ended
  rw [ht.tasks, hcons, Multiset.add_cons, Multiset.cons_add]

theorem Tells.attempt (ht : h.Tells s) (job : QueuedJob) (outcome : Outcome) :
    (h.attempt job outcome).Tells (s.attempt job outcome) := by
  have hmem : job ∈ h.unfinished ↔ job ∈ s.tasks := by rw [ht.unfinished, Multiset.mem_coe]
  by_cases hj : job ∈ s.tasks
  · have ha :
        ∀ job', Function.update s.attempts job (s.attempts job + 1) job'
          = (job :: h.tried).count job' :=
      fun job' => by
        by_cases heq : job' = job
        · subst heq
          simp [ht.attempts]
        · simp [heq, ht.attempts, count_cons_of_ne (Ne.symm heq)]
    rw [History.attempt, if_pos (hmem.mpr hj), Scheduler.attempt, if_pos hj, ← ht.attempts]
    cases outcome with
    | ok => exact ht.leave hj _ ha
    | panic => exact ht.leave hj _ ha
    | error =>
      by_cases hlast : job.maxAttempts ≤ s.attempts job + 1
      · simp only [if_pos hlast, not_lt.mpr hlast, and_false, if_false]
        exact ht.leave hj _ ha
      · simp only [if_neg hlast, not_le.mp hlast, and_self, if_true]
        exact ⟨ht.tasks, ha, ht.accounted⟩
  · rw [History.attempt, if_neg (hmem.not.mpr hj), Scheduler.attempt, if_neg hj]
    exact ht

theorem Tells.step (ht : h.Tells s) (e : Scheduler.Event) : (h.watch s e).Tells (s.step e) := by
  have hacc := ht.accounted
  cases e with
  | submit key priority maxAttempts =>
    rw [Scheduler.step, Scheduler.submit]
    by_cases hkey : key ∈ s.coordinator.inflight
    · rw [Coordinator.submit, if_pos hkey]
      exact ht
    · have hs := hacc.submit priority maxAttempts hkey
      rw [Coordinator.submit, if_neg hkey] at hs ⊢
      exact ⟨ht.tasks, ht.attempts, hs⟩
  | dispatch gauge =>
    refine ⟨?_, ht.attempts, hacc.round gauge⟩
    change ↑(s.coordinator.round gauge).1.toList + h.dispatched
      = ↑((s.coordinator.round gauge).1.toList ++ s.tasks) + h.ended
    rw [ht.tasks, ← Multiset.coe_add, add_assoc]
  | attempt job outcome => exact ht.attempt job outcome
  | setClassCap c cap => exact ⟨ht.tasks, ht.attempts, { hacc with }⟩
  | setActiveCap n => exact ⟨ht.tasks, ht.attempts, { hacc with }⟩

/-- **The accounts never leak**: after any run, what is in flight is what the classes have in flight
and what was dispatched and has not ended, what is counted as queued is queued, and the keys that
are taken are those of the jobs that are queued or have not ended, of which no two have one key. -/
theorem accounts_never_leak (concurrency : ℕ) (events : List Scheduler.Event) :
    let p := Run.run step (.new concurrency, ⟨0, [], 0⟩) events
    let s := p.1.coordinator
    s.inFlight = (JobClass.all.map s.classInflight).sum ∧ s.inFlight = p.2.unfinished.card
      ∧ (∀ c, s.classInflight c = p.2.unfinished.countP fun j => j.jobClass = c)
      ∧ (∀ c, s.classQueued c = Coordinator.ofClass c s.queue.items)
      ∧ (∀ key, key ∈ s.inflight ↔ ∃ j ∈ ↑s.queue.items + p.2.unfinished, j.key = key)
      ∧ ((↑s.queue.items + p.2.unfinished).map QueuedJob.key).Nodup := by
  intro p s
  have ht : p.2.Tells p.1 := Run.always (I := fun q : Scheduler × History => q.2.Tells q.1)
    ⟨rfl, fun _ => rfl, rfl, rfl, fun _ => rfl, fun _ => rfl, .refl _, .nil⟩ fun q e hq => hq.step e
  have h := ht.accounted
  rw [ht.unfinished, Multiset.coe_add]
  refine ⟨?_, h.inFlight, h.classInflight, h.classQueued, fun key => ?_, ?_⟩
  · rw [h.inFlight, ← Coordinator.sum_ofClass, funext h.classInflight]
  · rw [h.keys.mem_iff, List.mem_map]
    rfl
  · exact h.keys.nodup_iff.mp h.nodup

end History

end Zephcraft.Sched
