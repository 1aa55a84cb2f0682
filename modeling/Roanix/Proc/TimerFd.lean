import Mathlib.Data.Set.Card
import Mathlib.Data.UInt

/-! Timer descriptors (`timerfd.rs`). Times and counts are `u64` values, whose sums saturate. -/
namespace Roanix.Proc.Timer

inductive ClockId where
  | realtime
  | monotonic
  | boottime
deriving DecidableEq

inductive Errno where
  | invalid
  | fault
  | tryAgain
deriving DecidableEq

def tfdTimerAbstime : UInt64 := 1
def tfdTimerCancelOnSet : UInt64 := 2
def u64Max : ℕ := 2 ^ 64 - 1

def saturatingAdd (a b : ℕ) : ℕ := min (a + b) u64Max
def saturatingMul (a b : ℕ) : ℕ := min (a * b) u64Max

structure TimerState where
  deadlineNs : ℕ
  intervalNs : ℕ
  expirations : ℕ
deriving DecidableEq

structure TimerFd where
  clockId : ClockId
  state : TimerState
  nonblocking : Bool
deriving DecidableEq

def TimerFd.new (clockId : ClockId) (nonblocking : Bool) : TimerFd :=
  ⟨clockId, ⟨0, 0, 0⟩, nonblocking⟩

def refresh (state : TimerState) (now : ℕ) : TimerState :=
  if state.deadlineNs = 0 ∨ now < state.deadlineNs then state
  else if state.intervalNs = 0 then
    { state with deadlineNs := 0, expirations := saturatingAdd state.expirations 1 }
  else
    let count := saturatingAdd ((now - state.deadlineNs) / state.intervalNs) 1
    { state with
      deadlineNs := saturatingAdd state.deadlineNs (saturatingMul state.intervalNs count)
      expirations := saturatingAdd state.expirations count }

def remainingNs (state : TimerState) (now : ℕ) : ℕ := state.deadlineNs - now

namespace TimerFd

/-- The previous state, and the descriptor after the call. -/
def setTime (fd : TimerFd) (flags : UInt64) (intervalNs valueNs now : ℕ) :
    Except Errno (TimerState × TimerFd) :=
  if flags &&& ~~~(tfdTimerAbstime ||| tfdTimerCancelOnSet) ≠ 0 ∨
      flags &&& tfdTimerCancelOnSet ≠ 0 ∧
        (fd.clockId ≠ .realtime ∨ flags &&& tfdTimerAbstime = 0) then
    .error .invalid
  else
    let deadlineNs :=
      if valueNs = 0 then 0
      else if flags &&& tfdTimerAbstime ≠ 0 then valueNs
      else saturatingAdd now valueNs
    .ok (refresh fd.state now, { fd with state := ⟨deadlineNs, intervalNs, 0⟩ })

def currentTime (fd : TimerFd) (now : ℕ) : TimerFd := { fd with state := refresh fd.state now }

/-- One pass of the loop of `read`, with the count that it stores; `none` waits for the next pass.
`stored` tells whether the copy to the sink succeeds. -/
def read (fd : TimerFd) (len : ℕ) (stored : Bool) (now : ℕ) : Option (Except Errno ℕ) × TimerFd :=
  if len < 8 then (some (.error .invalid), fd)
  else
    let state := refresh fd.state now
    if state.expirations ≠ 0 then
      if stored then
        (some (.ok state.expirations), { fd with state := { state with expirations := 0 } })
      else (some (.error .fault), { fd with state := state })
    else (if fd.nonblocking then some (.error .tryAgain) else none, { fd with state := state })

/-- `poll` with `IN` among the requested events. -/
def poll (fd : TimerFd) (now : ℕ) : Bool × TimerFd :=
  (decide ((refresh fd.state now).expirations ≠ 0), fd.currentTime now)

/-- The remaining time that `timerfd_gettime` writes: it reads the clock a second time. -/
def getTime (fd : TimerFd) (now later : ℕ) : ℕ := remainingNs (fd.currentTime now).state later

end TimerFd

def realtimeNs (offset monotonic : ℕ) : ℕ := saturatingAdd monotonic offset

def ClockId.reading (clockId : ClockId) (offset monotonic : ℕ) : ℕ :=
  if clockId = .realtime then realtimeNs offset monotonic else monotonic

inductive Look where
  | read (len : ℕ) (stored : Bool)
  | poll
  | getTime

def Look.run (fd : TimerFd) : Look × ℕ → TimerFd
  | (.read len stored, now) => (fd.read len stored now).2
  | (.poll, now) => (fd.poll now).2
  | (.getTime, now) => fd.currentTime now

def Look.count (fd : TimerFd) : Look × ℕ → ℕ
  | (.read len stored, now) =>
    match (fd.read len stored now).1 with
    | some (.ok n) => n
    | _ => 0
  | _ => 0

/-- What the reads among some calls return together. -/
def delivered (fd : TimerFd) : List (Look × ℕ) → ℕ
  | [] => 0
  | c :: calls => Look.count fd c + delivered (Look.run fd c) calls

variable {fd : TimerFd} {t now later v interval offset : ℕ}

theorem keep_looks {P : ℕ → TimerFd → ℕ → Prop} {n : ℕ} {calls : List (Look × ℕ)}
    (hmono : ∀ n fd t now, P n fd t → t ≤ now → P n fd now)
    (hlook : ∀ c ∈ calls, c.2 ≤ now → ∀ n fd, P n fd c.2 →
      P (n + Look.count fd c) (Look.run fd c) c.2)
    (h : P n fd t) (horder : calls.Pairwise fun c d => c.2 ≤ d.2) (hstart : ∀ c ∈ calls, t ≤ c.2)
    (ht : t ≤ now) (hcalls : ∀ c ∈ calls, c.2 ≤ now) :
    P (n + delivered fd calls) (calls.foldl Look.run fd) now := by
  induction calls generalizing fd t n with
  | nil => exact hmono _ _ _ _ h ht
  | cons c calls ih =>
    obtain ⟨hfirst, horder⟩ := List.pairwise_cons.mp horder
    obtain ⟨hc, hcalls⟩ := List.forall_mem_cons.mp hcalls
    obtain ⟨hlook, hlooks⟩ := List.forall_mem_cons.mp hlook
    rw [delivered, ← Nat.add_assoc]
    exact ih hlooks (hlook hc _ _ (hmono _ _ _ _ h (hstart c List.mem_cons_self))) horder hfirst hc
      hcalls

theorem expirations_refresh {state : TimerState} : (refresh state now).expirations ≠ 0 ↔
    state.expirations ≠ 0 ∨ state.deadlineNs ≠ 0 ∧ state.deadlineNs ≤ now := by
  unfold refresh
  split_ifs with hearly hone
  · omega
  · simp only [saturatingAdd, u64Max]
    omega
  · generalize (now - state.deadlineNs) / state.intervalNs = passed
    simp only [saturatingAdd, u64Max]
    omega

/-- A timer that was set to `v` and last looked at by time `t`: it is as it was set, or it holds
an expiration that nobody has read. -/
def Armed (v interval : ℕ) (fd : TimerFd) (t : ℕ) : Prop :=
  fd.state = ⟨v, interval, 0⟩ ∨
    v ≤ t ∧ fd.state.expirations ≠ 0 ∧ (interval = 0 → fd.state.deadlineNs = 0)

namespace Armed

theorem mono (h : Armed v interval fd t) (ht : t ≤ now) : Armed v interval fd now :=
  h.imp_right fun hdue => ⟨hdue.1.trans ht, hdue.2⟩

theorem expirations (h : Armed v interval fd now) (hv : v ≠ 0) :
    (refresh fd.state now).expirations ≠ 0 ↔ v ≤ now := by
  rw [expirations_refresh]
  obtain hset | ⟨hle, hne, -⟩ := h
  · simp [hset, hv]
  · exact iff_of_true (.inl hne) hle

theorem currentTime (h : Armed v interval fd now) (hv : v ≠ 0) :
    Armed v interval (fd.currentTime now) now := by
  by_cases hle : v ≤ now
  · refine .inr ⟨hle, (h.expirations hv).mpr hle, fun hone => ?_⟩
    obtain hset | ⟨-, -, hdead⟩ := h
    · simp [TimerFd.currentTime, hset, refresh, hone, hv, Nat.not_lt.mpr hle]
    · simp [TimerFd.currentTime, refresh, hdead hone]
  · have hset := h.resolve_right fun hdue => hle hdue.1
    left
    simp [TimerFd.currentTime, hset, refresh, Nat.lt_of_not_le hle]

theorem look {c : Look × ℕ} (h : Armed v interval fd c.2) (hv : v ≠ 0)
    (hkeep : v ≤ c.2 → ∀ len, c.1 ≠ .read len true) : Armed v interval (Look.run fd c) c.2 := by
  obtain ⟨c, now⟩ := c
  cases c with
  | read len stored =>
    simp only [Look.run, TimerFd.read]
    split_ifs with hlen hne hstored
    · exact h
    · cases hstored
      exact absurd rfl (hkeep ((h.expirations hv).mp hne) len)
    all_goals exact h.currentTime hv
  | poll | getTime => exact h.currentTime hv

end Armed

/-- The `k`-th expiration of a timer that was set to `first` has come. -/
def Due (first interval now k : ℕ) : Prop :=
  first ≠ 0 ∧ (interval = 0 → k = 0) ∧ first + k * interval ≤ now

def instants (first interval now : ℕ) : ℕ :=
  if first = 0 ∨ now < first then 0
  else if interval = 0 then 1
  else (now - first) / interval + 1

/-- The state when a number of expirations have passed and reads have returned some of them. -/
def stateOf (first interval passed taken : ℕ) : TimerState where
  deadlineNs := if first = 0 ∨ interval = 0 ∧ passed ≠ 0 then 0 else first + passed * interval
  intervalNs := interval
  expirations := passed - taken

section Exact
variable {first k passed taken : ℕ}

theorem Due.mono (h : Due first interval t k) (ht : t ≤ now) : Due first interval now k :=
  ⟨h.1, h.2.1, h.2.2.trans ht⟩

theorem lt_instants : k < instants first interval now ↔ Due first interval now k := by
  unfold instants Due
  split_ifs with hearly hone
  · omega
  · simp only [hone, Nat.mul_zero, true_imp_iff]
    omega
  · rw [Nat.lt_succ_iff, Nat.le_div_iff_mul_le (Nat.pos_of_ne_zero hone)]
    omega

theorem instants_mono (ht : t ≤ now) : instants first interval t ≤ instants first interval now := by
  by_contra hlt
  have hdue := lt_instants.mp (Nat.lt_of_not_le hlt)
  exact lt_irrefl _ (lt_instants.mpr (hdue.mono ht))

theorem deadline_stateOf (taken : ℕ) (hall : instants first interval now ≤ passed) :
    (stateOf first interval passed taken).deadlineNs = 0 ∨
      now < (stateOf first interval passed taken).deadlineNs := by
  unfold stateOf
  split_ifs with hout
  · exact .inl rfl
  · right
    by_contra hle
    exact absurd (lt_instants.mpr ⟨fun h => hout (.inl h), by tauto, Nat.le_of_not_lt hle⟩)
      (Nat.not_lt.mpr hall)

variable (hexact : ∀ k, Due first interval now k → first + (k + 1) * interval ≤ u64Max)

include hexact in
theorem refresh_stateOf (hpassed : passed ≤ instants first interval now) (htaken : taken ≤ passed) :
    refresh (stateOf first interval passed taken) now =
      stateOf first interval (instants first interval now) taken := by
  obtain rfl | hlt := hpassed.eq_or_lt
  · exact if_pos (deadline_stateOf taken le_rfl)
  obtain ⟨hfirst, honce, hle⟩ := lt_instants.mp hlt
  have hdeadline : (stateOf first interval passed taken).deadlineNs = first + passed * interval :=
    if_neg (by tauto)
  have hearly : ¬ (first = 0 ∨ now < first) := by omega
  unfold refresh
  rw [hdeadline, if_neg (by omega)]
  by_cases hone : interval = 0
  · subst hone
    obtain rfl := honce rfl
    simp [stateOf, instants, hearly, Nat.eq_zero_of_le_zero htaken, saturatingAdd, u64Max]
  · obtain ⟨p, hp⟩ := Nat.exists_eq_add_of_lt hlt
    have hlast := hexact (passed + p) (lt_instants.mp (by omega))
    have hdiv : (now - (first + passed * interval)) / interval = p := by
      rw [instants, if_neg hearly, if_neg hone] at hp
      rw [← Nat.sub_sub, Nat.mul_comm, Nat.sub_mul_div]
      omega
    have hmax : passed + p + 1 ≤ u64Max := by
      have := Nat.le_mul_of_pos_right (passed + p + 1) (Nat.pos_of_ne_zero hone)
      omega
    have hmul : interval * (p + 1) = p * interval + interval := Nat.mul_comm _ _ ▸ Nat.succ_mul ..
    rw [hp]
    rw [Nat.succ_mul, Nat.add_mul] at hlast
    simp only [stateOf, hone, hdiv, hfirst, saturatingAdd, saturatingMul, if_false, false_or,
      false_and, Nat.succ_mul, Nat.add_mul]
    simp (disch := omega) only [Nat.min_eq_left, hmul]
    congr 1 <;> omega

/-- Reads have returned `taken` of the expirations that had passed when the timer was last looked
at, no later than `t`. -/
def Counted (first interval taken : ℕ) (fd : TimerFd) (t : ℕ) : Prop :=
  ∃ passed ≤ instants first interval t, taken ≤ passed ∧
    fd.state = stateOf first interval passed taken

namespace Counted

theorem mono (h : Counted first interval taken fd t) (ht : t ≤ now) :
    Counted first interval taken fd now := by
  obtain ⟨passed, hpassed, h⟩ := h
  exact ⟨passed, hpassed.trans (instants_mono ht), h⟩

include hexact

theorem refresh (h : Counted first interval taken fd now) :
    taken ≤ instants first interval now ∧
      refresh fd.state now = stateOf first interval (instants first interval now) taken := by
  obtain ⟨passed, hpassed, htaken, hstate⟩ := h
  rw [hstate]
  exact ⟨htaken.trans hpassed, refresh_stateOf hexact hpassed htaken⟩

theorem look {c : Look × ℕ} (h : Counted first interval taken fd c.2) (hc : c.2 ≤ now) :
    Counted first interval (taken + Look.count fd c) (Look.run fd c) c.2 := by
  obtain ⟨htaken, hrefresh⟩ := h.refresh fun k hk => hexact k (hk.mono hc)
  obtain ⟨c, now⟩ := c
  have hcurrent : Counted first interval taken (fd.currentTime now) now :=
    ⟨_, le_rfl, htaken, hrefresh⟩
  cases c with
  | read len stored =>
    simp only [Look.count, Look.run, TimerFd.read]
    split_ifs with hlen hne hstored hnon
    · exact h
    · have hall := Nat.add_sub_of_le htaken
      rw [hrefresh]
      refine ⟨_, le_rfl, hall.le, ?_⟩
      simp [stateOf, hall]
    all_goals exact hcurrent
  | poll | getTime => exact hcurrent

end Counted
end Exact

/-- Whatever looks there were since a timer was set, its reads and its pending count add up to the
expirations that have passed; `set_time` starts again from none. -/
theorem every_expiration_is_counted_once {fd' : TimerFd} {first : ℕ} {calls : List (Look × ℕ)}
    (hset : fd.state = ⟨first, interval, 0⟩) (hrun : calls.foldl Look.run fd = fd')
    (horder : calls.Pairwise fun c d => c.2 ≤ d.2) (hcalls : ∀ c ∈ calls, c.2 ≤ now)
    (hexact : ∀ k, Due first interval now k → first + (k + 1) * interval ≤ u64Max) :
    (∀ t ≤ now, (∀ c ∈ calls, c.2 ≤ t) →
      refresh (refresh fd'.state t) now = refresh fd'.state now) ∧
    delivered fd calls + (refresh fd'.state now).expirations =
      Set.ncard {k | Due first interval now k} ∧
    (if first = 0 ∨ interval = 0 ∧ first ≤ now then (refresh fd'.state now).deadlineNs = 0
      else now < (refresh fd'.state now).deadlineNs) ∧
    (∀ len ≥ 8, (fd'.read len false now).2.state = refresh fd'.state now) ∧
    ∀ flags next value old timer, fd'.setTime flags next value now = .ok (old, timer) →
      old = refresh fd'.state now ∧ timer.state.expirations = 0 := by
  have hstart : Counted first interval 0 fd 0 := by
    refine ⟨0, Nat.zero_le _, le_rfl, hset.trans ?_⟩
    by_cases hfirst : first = 0 <;> simp [stateOf, hfirst]
  have hcounted (t : ℕ) (ht : t ≤ now) (hcalls : ∀ c ∈ calls, c.2 ≤ t) :
      Counted first interval (delivered fd calls) fd' t := by
    have hlooks := keep_looks (fun _ _ _ _ => .mono)
      (fun c _ hc _ _ h => h.look hexact (hc.trans ht))
      hstart horder (fun c _ => c.2.zero_le) t.zero_le hcalls
    rwa [hrun, Nat.zero_add] at hlooks
  obtain ⟨htaken, hrefresh⟩ := (hcounted now le_rfl hcalls).refresh hexact
  refine ⟨fun t ht hearlier => ?_, ?_, ?_, fun len hlen => ?_,
    fun flags next value old timer h => ?_⟩
  · obtain ⟨htaken, hfirst⟩ := (hcounted t ht hearlier).refresh fun k hk => hexact k (hk.mono ht)
    rw [hfirst, hrefresh, refresh_stateOf hexact (instants_mono ht) htaken]
  · have hset : {k | Due first interval now k} = Finset.range (instants first interval now) := by
      ext k
      simp [lt_instants]
    rw [hrefresh, hset, Set.ncard_coe_finset, Finset.card_range]
    exact Nat.add_sub_of_le htaken
  · have hpassed : instants first interval now ≠ 0 ↔ first ≠ 0 ∧ first ≤ now := by
      rw [← Nat.pos_iff_ne_zero, lt_instants]
      simp [Due]
    have hdeadline := deadline_stateOf (delivered fd calls) (le_refl (instants first interval now))
    rw [hrefresh]
    simp only [stateOf, hpassed] at hdeadline ⊢
    split_ifs at hdeadline ⊢ <;> omega
  · simp only [TimerFd.read, if_neg (Nat.not_lt.mpr hlen), Bool.false_eq_true, if_false]
    split_ifs <;> rfl
  · unfold TimerFd.setTime at h
    split_ifs at h <;> cases h <;> exact ⟨rfl, rfl⟩

theorem every_expiration_is_counted_once_example :
    3 + 2 = Set.ncard {k | Due 10 5 30 k} :=
  have hexact (k : ℕ) (hk : Due 10 5 30 k) : 10 + (k + 1) * 5 ≤ u64Max := by
    have := hk.2.2
    unfold u64Max
    omega
  have hset : (⟨.monotonic, ⟨10, 5, 0⟩, true⟩ : TimerFd).state = ⟨10, 5, 0⟩ := rfl
  have hcalls : ∀ c ∈ [(Look.read 8 true, 21), (.poll, 30)], c.2 ≤ 30 := by simp
  (every_expiration_is_counted_once hset rfl (by simp) hcalls hexact).2.1

end Roanix.Proc.Timer
