import Zephcraft.Foundations.OrderedMap
import Zephcraft.Foundations.Run
import Zephcraft.Foundations.Word

/-!
# Core/Hlc — the hybrid logical clock

A timestamp is a wall time in milliseconds over a counter of 16 bits. Calls load the clock, work out
a candidate above what they loaded, and exchange it if the clock is still what they loaded; else
they start over. Calls of several threads interleave at any of these points.
-/

namespace Zephcraft.Core

open Run List Word

/-- `MAX_SKEW_MS` -/
def maxSkewMs : U64 := 500

namespace Timestamp

def fromParts (millis : U64) (logical : Word 16) : U64 :=
  truncate (millis.val % 2 ^ 48 * 2 ^ 16 + logical.val)

def millis (t : U64) : U64 := truncate (t.val / 2 ^ 16)

end Timestamp

/-- A call, as far as it does not depend on the clock: a merge has read the wall and what the remote
amounts to. -/
inductive HlcCall where
  | now
  | merge (wall effective skewMs : U64) (clamped : Bool)

/-- The start of a merge: a remote too far ahead of the wall is clamped. -/
def HlcCall.ofRemote (remote wall : U64) : Except Panic HlcCall := do
  let ahead ← wall.addOrPanic maxSkewMs
  let millis := Timestamp.millis remote
  let clamped := decide (ahead < millis)
  pure (.merge wall (if clamped then Timestamp.fromParts ahead 0 else remote)
    (max (millis.satSub wall) (wall.satSub millis)) clamped)

/-- The candidate for a clock that was loaded; `now` reads the wall each time. -/
def HlcCall.candidate (last wall : U64) : HlcCall → Except Panic U64
  | .now => do
    let next ← last.addOrPanic 1
    pure (max (truncate (wall.val * 2 ^ 16)) next)
  | .merge wall effective _ _ => do
    let next ← last.addOrPanic 1
    let after ← effective.addOrPanic 1
    pure (max (max (truncate (wall.val * 2 ^ 16)) next) after)

/-- What a call must come out above, besides the clock. -/
def HlcCall.effective : HlcCall → Option U64
  | .now => none
  | .merge _ effective _ _ => some effective

/-- A call under way, and what it has loaded with its candidate. -/
structure HlcPending where
  call : HlcCall
  loaded : Option (U64 × U64)

/-- The clock, the calls under way, and what calls returned in the order of their exchanges. -/
structure Clock where
  last : U64
  calls : BTreeMap ℕ HlcPending
  returned : List (HlcCall × U64)

/-- Steps of the calls on a clock. -/
inductive HlcEvent where
  | now (id : ℕ)
  | merge (id : ℕ) (remote wall : U64)
  | load (id : ℕ) (wall : U64)
  | exchange (id : ℕ)

/-- The wall as an event reads it. -/
def HlcEvent.wall : HlcEvent → U64
  | .merge _ _ wall | .load _ wall => wall
  | .now _ | .exchange _ => 0

namespace Clock

def new : Clock := ⟨0, ∅, []⟩

/-- A call begins, unless it panicked before the loop. -/
def start (s : Clock) (id : ℕ) : Except Panic HlcCall → Clock
  | .ok call => if id ∈ s.calls then s else { s with calls := s.calls.insert id ⟨call, none⟩ }
  | .error _ => s

def load (s : Clock) (id : ℕ) (wall : U64) : Clock :=
  match s.calls[id]? with
  | some ⟨call, none⟩ =>
    match call.candidate s.last wall with
    | .ok c => { s with calls := s.calls.insert id ⟨call, some (s.last, c)⟩ }
    | .error _ => { s with calls := s.calls.erase id }
  | _ => s

def exchange (s : Clock) (id : ℕ) : Clock :=
  match s.calls[id]? with
  | some ⟨call, some (l, c)⟩ =>
    if s.last = l then ⟨c, s.calls.erase id, s.returned ++ [(call, c)]⟩
    else { s with calls := s.calls.insert id ⟨call, none⟩ }
  | _ => s

def step (s : Clock) : HlcEvent → Clock
  | .now id => s.start id (.ok .now)
  | .merge id remote wall => s.start id (HlcCall.ofRemote remote wall)
  | .load id wall => s.load id wall
  | .exchange id => s.exchange id

/-- The furthest a remote can take the clock, for a latest wall reading. -/
def reach (W : ℕ) : ℕ := (W + 500) * 2 ^ 16 + 65535

end Clock

namespace HlcCall

variable {W : ℕ} {wall last c : U64} {call : HlcCall}

/-- A call reads the wall, and takes the remote, within reach. -/
def Within (W : ℕ) : HlcCall → Prop
  | .now => True
  | .merge wall effective _ _ => wall.val ≤ W ∧ effective.val ≤ Clock.reach W

theorem within_of_ofRemote {remote : U64} (hW : W < 2 ^ 47) (hw : wall.val ≤ W)
    (h : ofRemote remote wall = .ok call) : call.Within W := by
  obtain ⟨ahead, ha, heq⟩ := Except.bind_eq_ok.mp h
  cases heq
  have hval : ahead.val = wall.val + 500 := addOrPanic_eq_ok.mp ha
  refine ⟨hw, ?_⟩
  rw [Clock.reach]
  split
  · rw [Timestamp.fromParts, val_truncate, Nat.mod_eq_of_lt (by omega)]
    change _ + 0 ≤ _
    omega
  · next hc =>
    rw [decide_eq_true_eq, not_lt] at hc
    have hm : remote.val / 2 ^ 16 % 2 ^ 64 ≤ ahead.val := hc
    have := remote.isLt
    omega

theorem candidate_spec (hc : call.Within W) (hwa : wall.val ≤ W)
    (h : call.candidate last wall = .ok c) :
    last < c ∧ (∀ e ∈ call.effective, e < c) ∧ c.val ≤ max (Clock.reach W + 1) (last.val + 1) := by
  have hs : ∀ w : U64, w.val ≤ W → (truncate (w.val * 2 ^ 16) : U64).val ≤ Clock.reach W :=
    fun w hw => by
    refine (Nat.mod_le _ _).trans ?_
    rw [Clock.reach]
    omega
  cases call with
  | now =>
    obtain ⟨next, hn, heq⟩ := Except.bind_eq_ok.mp h
    cases heq
    have hval : next.val = last.val + 1 := addOrPanic_eq_ok.mp hn
    have hr := hs wall hwa
    refine ⟨lt_max_of_lt_right (Fin.lt_def.mpr (by omega)), fun e he =>
      absurd he (by simp [effective]), ?_⟩
    rw [Fin.coe_max]
    omega
  | merge wall' eff skewMs clamped =>
    obtain ⟨next, hn, hre⟩ := Except.bind_eq_ok.mp h
    obtain ⟨after, ha, heq⟩ := Except.bind_eq_ok.mp hre
    cases heq
    have hval : next.val = last.val + 1 := addOrPanic_eq_ok.mp hn
    have hrem : after.val = eff.val + 1 := addOrPanic_eq_ok.mp ha
    have hr := hs wall' hc.1
    have hrea := hc.2
    refine ⟨lt_max_of_lt_left (lt_max_of_lt_right (Fin.lt_def.mpr (by omega))), fun e he => ?_, ?_⟩
    · cases he
      exact lt_max_of_lt_right (Fin.lt_def.mpr (by omega))
    · rw [Fin.coe_max, Fin.coe_max]
      omega

end HlcCall

namespace Clock

variable {W : ℕ} {s : Clock} {id : ℕ}

/-- The clock is above all it returned, and within reach but for one tick an exchange; so is what
calls are about to exchange. -/
structure Ordered (W : ℕ) (s : Clock) : Prop where
  within : ∀ (id : ℕ) p, s.calls[id]? = some p → p.call.Within W
  ahead : ∀ (id : ℕ) call l c, s.calls[id]? = some ⟨call, some (l, c)⟩ →
    l < c ∧ (∀ e ∈ call.effective, e < c) ∧ c.val ≤ max (reach W + 1) (l.val + 1)
  increasing : (s.returned.map Prod.snd).Pairwise (· < ·)
  passed : ∀ r ∈ s.returned, r.2 ≤ s.last ∧ ∀ e ∈ r.1.effective, e < r.2
  bounded : s.last.val ≤ reach W + s.returned.length

/-- To note where a call stands. -/
theorem Ordered.insert (h : Ordered W s) {p : HlcPending} (hc : p.call.Within W)
    (hl : ∀ l c, p.loaded = some (l, c) →
      l < c ∧ (∀ e ∈ p.call.effective, e < c) ∧ c.val ≤ max (reach W + 1) (l.val + 1)) :
    Ordered W { s with calls := s.calls.insert id p } := by
  refine ⟨fun k q hq => ?_, fun k call l c hq => ?_, h.increasing, h.passed, h.bounded⟩ <;>
    rw [BTreeMap.getElem?_insert] at hq <;> split at hq
  · exact Option.some.inj hq ▸ hc
  · exact h.within k q hq
  · cases hq
    exact hl l c rfl
  · exact h.ahead k call l c hq

theorem getElem?_of_erase {k : ℕ} {p : HlcPending} (h : (s.calls.erase id)[k]? = some p) :
    s.calls[k]? = some p := by
  rw [Std.ExtTreeMap.getElem?_erase] at h
  split at h
  · exact absurd h (by simp)
  · exact h

theorem Ordered.start (h : Ordered W s) {call : Except Panic HlcCall}
    (hc : ∀ c, call = .ok c → c.Within W) :
    Ordered W (s.start id call) := by
  cases call with
  | error e => exact h
  | ok c =>
    rw [Clock.start]
    split
    · exact h
    · exact h.insert (hc c rfl) fun _ _ hl => nomatch hl

theorem Ordered.load (h : Ordered W s) {wall : U64} (hwa : wall.val ≤ W) :
    Ordered W (s.load id wall) := by
  rw [Clock.load]
  split
  · next call hca =>
    have hw : call.Within W := h.within id _ hca
    split
    · next c hc =>
      refine h.insert hw fun l c' hl => ?_
      cases hl
      exact HlcCall.candidate_spec hw hwa hc
    · exact ⟨fun k p hp => h.within k p (getElem?_of_erase hp),
        fun k call l c hp => h.ahead k call l c (getElem?_of_erase hp), h.increasing, h.passed,
          h.bounded⟩
  · exact h

theorem Ordered.exchange (h : Ordered W s) : Ordered W (s.exchange id) := by
  rw [Clock.exchange]
  split
  · next call l c hc =>
    obtain ⟨hlt, he, hle⟩ := h.ahead id call l c hc
    split
    · next hla =>
      subst hla
      refine ⟨fun k p hp => h.within k p (getElem?_of_erase hp),
        fun k call l c hp => h.ahead k call l c (getElem?_of_erase hp), ?_, fun r hr => ?_, ?_⟩
      · rw [map_append, List.pairwise_append]
        refine ⟨h.increasing, pairwise_singleton _ _, fun a ha b hb => ?_⟩
        obtain ⟨r, hr, rfl⟩ := mem_map.mp ha
        obtain rfl := mem_singleton.mp hb
        exact (h.passed r hr).1.trans_lt hlt
      · rcases mem_append.mp hr with hr | hr
        · exact ⟨(h.passed r hr).1.trans hlt.le, (h.passed r hr).2⟩
        · obtain rfl := mem_singleton.mp hr
          exact ⟨le_rfl, he⟩
      · have := h.bounded
        rw [length_append, length_singleton]
        dsimp only
        omega
    · have hw : call.Within W := h.within id _ hc
      exact h.insert hw fun _ _ hl => nomatch hl
  · exact h

theorem Ordered.step (h : Ordered W s) (hW : W < 2 ^ 47) {event : HlcEvent}
    (hw : event.wall.val ≤ W) :
    Ordered W (s.step event) := by
  cases event with
  | now id =>
    have hs : Ordered W (s.start id (.ok .now)) := h.start fun c hc => by
      cases hc
      trivial
    exact hs
  | merge id remote wall =>
    have hr : wall.val ≤ W := hw
    have hs : Ordered W (s.start id (HlcCall.ofRemote remote wall)) :=
      h.start fun _ => HlcCall.within_of_ofRemote hW hr
    exact hs
  | load id wall =>
    have hr : wall.val ≤ W := hw
    exact h.load hr
  | exchange id => exact h.exchange

/-- **The clock is strictly monotone and does not drift**: however calls interleave, what they
return goes up from exchange to exchange, a merge returns more than what its remote amounts to, and
the clock is at most one tick an exchange above what the latest wall reading allows. -/
theorem clock_monotone {W : ℕ} (hW : W < 2 ^ 47) (events : List HlcEvent)
    (hwall : ∀ e ∈ events, e.wall.val ≤ W) :
    ((run step new events).returned.map Prod.snd).Pairwise (· < ·) ∧
      (∀ r ∈ (run step new events).returned, ∀ e ∈ r.1.effective, e < r.2) ∧
      (run step new events).last.val ≤ ((W + 500) * 2 ^ 16 + 65535)
        + (run step new events).returned.length := by
  have hnew : Ordered W new :=
    ⟨by simp [new], by simp [new], List.Pairwise.nil, by simp [new], Nat.zero_le _⟩
  have h : Ordered W (run step new events) := invariant (C := fun _ e => e.wall.val ≤ W) hnew
    (fun _ _ h hevent => h.step hW hevent) fun pre e hp => hwall e (hp.subset (by simp))
  exact ⟨h.increasing, fun r hr => (h.passed r hr).2, h.bounded⟩

/-- Two calls race; the one that loses tries again. -/
def race : List HlcEvent :=
  [.now 0, .merge 1 (Timestamp.fromParts 9000 7) 5, .load 0 5, .load 1 0, .exchange 1, .exchange 0,
    .load 0 3, .exchange 0]

theorem clock_monotone_race :
    ((run step new race).returned.map Prod.snd).Pairwise (· < ·) ∧
      (∀ r ∈ (run step new race).returned, ∀ e ∈ r.1.effective, e < r.2) ∧
      (run step new race).last.val ≤ ((5 + 500) * 2 ^ 16 + 65535)
        + (run step new race).returned.length :=
  clock_monotone (by norm_num) race (by decide)

end Clock

end Zephcraft.Core
