import Roanix.Lib.Machine
import Roanix.Sys.Clock.Queue

/-! The calendar hands out the expired timers in the order of their deadlines, and the hardware is
set to the first thing that is due. -/
namespace Roanix.Sys.Clock
open Lib Lib.Act Lib.Tournament List
open CalendarQueue

section Sorting
variable {α : Type} {r s : α → α → Prop} [DecidableRel r] [DecidableRel s] {l : List α} {a : α}

theorem orderedInsert_congr (h : ∀ b ∈ l, r a b ↔ s a b) :
    l.orderedInsert r a = l.orderedInsert s a := by
  induction l with
  | nil => rfl
  | cons b l ih =>
    have hb := h b mem_cons_self
    rw [orderedInsert_cons, orderedInsert_cons, ih fun c hc => h c (mem_cons_of_mem _ hc)]
    by_cases hr : r a b
    · rw [if_pos hr, if_pos (hb.mp hr)]
    · rw [if_neg hr, if_neg (mt hb.mpr hr)]

theorem insertionSort_congr (h : l.Pairwise fun a b => r a b ↔ s a b) :
    l.insertionSort r = l.insertionSort s := by
  induction l with
  | nil => rfl
  | cons a l ih =>
    obtain ⟨ha, hl⟩ := pairwise_cons.mp h
    rw [insertionSort_cons, ih hl]
    exact orderedInsert_congr fun b hb => ha b ((mem_insertionSort s).mp hb)

theorem insertionSort_of_first [DecidableEq α] [Std.Total r] [IsTrans α r] (ha : a ∈ l)
    (hfirst : ∀ b ∈ l, r a b) (hanti : ∀ b ∈ l, ∀ c ∈ l, r b c → r c b → b = c) :
    l.insertionSort r = a :: (l.erase a).insertionSort r := by
  have hperm : (l.insertionSort r).Perm (a :: (l.erase a).insertionSort r) :=
    (perm_insertionSort r l).trans
      ((perm_cons_erase ha).trans ((perm_insertionSort r _).symm.cons a))
  refine hperm.eq_of_pairwise ?_ (pairwise_insertionSort r l) ?_
  · intro b c hb hc
    have hmem : c ∈ l := (mem_insertionSort r).mp (hperm.mem_iff.mpr hc)
    exact hanti b ((mem_insertionSort r).mp hb) c hmem
  · refine pairwise_cons.mpr ⟨fun b hb => ?_, pairwise_insertionSort r _⟩
    exact hfirst b (mem_of_mem_erase ((mem_insertionSort r).mp hb))

end Sorting

variable {ι : Type} [DecidableEq ι] {q q' : CalendarQueue ι} {pending : List ι} {t u : ι}

/-- The pending timers that are due, by their deadlines and among equal ones as they came. -/
def due (q : CalendarQueue ι) (pending : List ι) (now : ℕ) : List ι :=
  (pending.filter fun t => decide ((q.timers t).deadlineNs ≤ now)).insertionSort fun a b =>
    (q.timers a).deadlineNs ≤ (q.timers b).deadlineNs

section
omit [DecidableEq ι]

theorem due_eq (h : pending.Pairwise fun a b => (q.timers a).order < (q.timers b).order) (now : ℕ) :
    due q pending now =
      (pending.filter fun t => decide ((q.timers t).deadlineNs ≤ now)).insertionSort q.before := by
  refine insertionSort_congr ((h.sublist filter_sublist).imp fun hlt => ?_)
  rw [before, timerKey, timerKey, Timer.key, Timer.key, Prod.Lex.le_iff]
  simp only [ofLex_toLex]
  omega

theorem due_congr (h : ∀ u, q'.timerKey u = q.timerKey u) (pending : List ι) (now : ℕ) :
    due q' pending now = due q pending now := by
  have hdeadline : ∀ u, (q'.timers u).deadlineNs = (q.timers u).deadlineNs :=
    fun u => congrArg (fun k : Key => (ofLex k).1) (h u)
  unfold due
  simp only [hdeadline]

theorem update_timerKey (q : CalendarQueue ι) (b : ℕ) (u : ι) :
    (q.update b).timerKey u = q.timerKey u := by
  obtain ⟨winners, heads, h⟩ := update_eq q b
  rw [h]
  rfl

theorem due_eq_nil {now : ℕ} (h : ∀ u ∈ pending, now < (q.timers u).deadlineNs) :
    due q pending now = [] := by
  have hnone : pending.filter (fun t => decide ((q.timers t).deadlineNs ≤ now)) = [] :=
    filter_eq_nil_iff.mpr fun u hu => by simpa using h u hu
  rw [due, hnone, insertionSort_nil]

/-- The summary of a node: the least key of the buckets under it. -/
def Summary (q : CalendarQueue ι) (m : ℕ) : Prop :=
  match q.key (q.winners m) with
  | none => ∀ b, b < buckets → Below m (buckets + b) → q.buckets b = []
  | some k =>
    (∃ b, b < buckets ∧ Below m (buckets + b) ∧ ∃ t ∈ q.buckets b, q.timerKey t = k) ∧
    ∀ b, b < buckets → Below m (buckets + b) → ∀ u ∈ q.buckets b, k ≤ q.timerKey u

theorem Ok.summary (h : Ok q pending) {m : ℕ} (hm : 1 ≤ m) (hmn : m < 2 * buckets) :
    Summary q m := by
  unfold Summary
  obtain ⟨hnone, hempty⟩ | ⟨b, t, hb, hbelow, -, ht, hkey, hleast⟩ := h.node hm hmn
  · rw [hnone]
    exact hempty
  · rw [hkey]
    exact ⟨⟨b, hb, hbelow, t, mem_of_mem_head? ht, rfl⟩, hleast⟩

theorem Ok.new {timers : ι → Timer} (h : ∀ t, (timers t).linked = false) : Ok (.new timers) [] := by
  refine ⟨⟨?_, .nil, ?_, ?_, fun _ => .nil, fun _ => .nil⟩, ⟨fun _ _ => .inr rfl, ?_⟩, fun _ _ => rfl⟩
  · intro t
    simp [CalendarQueue.new, h]
  · intro t ht
    cases ht
  · intro b t
    simp [CalendarQueue.new, h]
  · intro m hm hmn
    exact .of_matches (play_fair _) (fun _ _ _ => rfl) hm hmn

end

section Pop

theorem Filed.due_cons (h : Filed q pending) {now : ℕ} (ht : t ∈ pending)
    (hnow : (q.timers t).deadlineNs ≤ now) (hfirst : ∀ u ∈ pending, q.timerKey t ≤ q.timerKey u) :
    due q pending now = t :: due q (pending.erase t) now := by
  have herase : (pending.erase t).filter (fun t => decide ((q.timers t).deadlineNs ≤ now)) =
      (pending.filter fun t => decide ((q.timers t).deadlineNs ≤ now)).erase t := by
    rw [h.nodup.erase_eq_filter, (h.nodup.filter _).erase_eq_filter, filter_filter,
      filter_filter]
    simp only [Bool.and_comm]
  have hmem : t ∈ pending.filter fun t => decide ((q.timers t).deadlineNs ≤ now) :=
    mem_filter.mpr ⟨ht, decide_eq_true hnow⟩
  have hsub : ∀ u ∈ pending.filter (fun t => decide ((q.timers t).deadlineNs ≤ now)), u ∈ pending :=
    fun u hu => (mem_filter.mp hu).1
  rw [due_eq h.ordered, due_eq (h.ordered.sublist erase_sublist), herase]
  exact insertionSort_of_first hmem (fun u hu => hfirst u (hsub u hu)) fun u hu v hv hle hge =>
    h.eq_of_timerKey (hsub u hu) (hsub v hv) (le_antisymm hle hge)

theorem diff_toList_some (pending : List ι) (t : ι) :
    pending.diff (some t).toList = pending.erase t := by
  rw [Option.toList_some, diff_cons, diff_nil]

theorem popExpired_ok (h : Ok q pending) (now : ℕ) :
    wp (fun _ => False) (popExpired now) (fun r q' => r = (due q pending now).head? ∧
      (∀ u, q'.timerKey u = q.timerKey u) ∧ Ok q' (pending.diff r.toList) ∧
      due q (pending.diff r.toList) now = (due q pending now).tail) (fun _ _ => False) q := by
  unfold wp popExpired CalendarQueue.nextDeadline
  obtain ⟨hnone, hempty⟩ | ⟨t, hhead, ht, hlt, hkey, hfirst⟩ := h.root
  · rw [hnone, hempty]
    exact ⟨rfl, fun _ => rfl, hempty ▸ h, rfl⟩
  · rw [hkey, Option.map_some, hhead]
    dsimp only
    split_ifs with hnow
    · have hdue := due_eq_nil fun u hu => hnow.trans_le (timerKey_le (hfirst u hu))
      rw [hdue]
      exact ⟨rfl, fun _ => rfl, h, hdue⟩
    · have hdue := h.filed.due_cons ht (Nat.le_of_not_lt hnow) hfirst
      rw [hdue]
      dsimp only
      rw [diff_toList_some]
      refine ⟨rfl, fun u => ?_, ?_, rfl⟩
      · rw [update_timerKey, unlinkTimer_timerKey]
      · exact h.unlink (mem_of_mem_head? hhead) hlt fun (hfalse : true = false) => by cases hfalse

theorem dispatchExpired_ok (now budget : ℕ) (h : Ok q pending) :
    wp (fun _ => False) (dispatchExpired now budget) (fun out q' =>
      out = (due q pending now).take budget ∧ (∀ u, q'.timerKey u = q.timerKey u) ∧
      Ok q' (pending.diff out)) (fun _ _ => False) q := by
  induction budget generalizing q pending with
  | zero =>
    exact ⟨rfl, fun _ => rfl, h⟩
  | succ budget ih =>
    rw [dispatchExpired, wp_bind]
    refine wp_post (popExpired_ok h now) ?_
    rintro r q₁ ⟨hr, hkeys, hok, htail⟩
    cases hdue : due q pending now with
    | nil =>
      rw [hdue] at hr
      subst hr
      exact ⟨rfl, hkeys, hok⟩
    | cons t rest =>
      rw [hdue, head?_cons] at hr
      rw [hdue] at htail
      subst hr
      simp only [wp_bind]
      refine wp_post (ih hok) ?_
      rintro out q₂ ⟨hout, hkeys₂, hok₂⟩
      rw [diff_toList_some, ← diff_cons] at hok₂
      refine ⟨?_, fun u => (hkeys₂ u).trans (hkeys u), hok₂⟩
      rw [hout, due_congr hkeys, htail, tail_cons, take_succ_cons]

end Pop

section Queue

/-- A step of the calendar, with the list of the timers that were inserted and neither cancelled nor
returned since. -/
inductive QueueStep : CalendarQueue ι × List ι → CalendarQueue ι × List ι → Prop
  | create {q : CalendarQueue ι} {pending : List ι} {t : ι} (deadlineNs : ℕ)
      (h : (q.timers t).linked = false) :
      QueueStep (q, pending) (q.withTimer t fun _ => .new deadlineNs, pending)
  | insert {q q' : CalendarQueue ι} {pending : List ι} {t : ι}
      (h : insertCallout t q = .ok () q') : QueueStep (q, pending) (q', pending ++ [t])
  | remove {q q' : CalendarQueue ι} {pending : List ι} {t : ι}
      (h : removeCallout t q = .ok () q') : QueueStep (q, pending) (q', pending.erase t)
  | pop {q q' : CalendarQueue ι} {pending : List ι} {now : ℕ} {r : Option ι}
      (h : popExpired now q = .ok r q') : QueueStep (q, pending) (q', pending.diff r.toList)

def queueMachine (ι : Type) [DecidableEq ι] : Machine (CalendarQueue ι × List ι) where
  init w := ∃ timers, (∀ t, (timers t).linked = false) ∧ w = (.new timers, [])
  step := QueueStep

theorem Ok.create (h : Ok q pending) (hlinked : (q.timers t).linked = false) (deadlineNs : ℕ) :
    Ok (q.withTimer t fun _ => .new deadlineNs) pending := by
  have hothers : ∀ u, u ≠ t → (q.withTimer t fun _ => .new deadlineNs).timers u = q.timers u :=
    fun u hu => Function.update_of_ne hu _ _
  have hpending : ∀ u ∈ pending, (q.withTimer t fun _ => .new deadlineNs).timers u = q.timers u := by
    intro u hu
    apply hothers
    rintro rfl
    rw [h.filed.member, hlinked] at hu
    cases hu
  refine ⟨h.filed.frame ?_ hpending rfl rfl, h.tree.congr rfl rfl, fun b hb => ?_⟩
  · intro u
    by_cases hu : u = t
    · subst hu
      simp only [withTimer, Function.update_self, hlinked, Timer.new]
    · rw [hothers u hu]
  · refine (h.fresh b hb).congr rfl rfl (front_congr rfl fun u hu => ?_)
    rw [timerKey, timerKey, hpending u (h.filed.mem_bucket hu).1]

theorem Ok.step (h : Ok q pending) {w : CalendarQueue ι × List ι} (hstep : QueueStep (q, pending) w) :
    Ok w.1 w.2 := by
  cases hstep with
  | create deadlineNs hlinked => exact h.create hlinked deadlineNs
  | insert hcall => exact (wp_ok (insertCallout_ok h) hcall :)
  | remove hcall => exact (wp_ok (removeCallout_ok h) hcall :)
  | pop hcall => exact (wp_ok (popExpired_ok h _) hcall).2.2.1

theorem reachable_queue_ok {w : CalendarQueue ι × List ι} (hw : (queueMachine ι).Reachable w) :
    Ok w.1 w.2 := by
  apply hw.invariant
  · rintro _ ⟨timers, hlinked, rfl⟩
    exact .new hlinked
  · exact fun _ _ h hstep => h.step hstep

end Queue

section Deadline

/-- The earlier of the scheduler's deadline and the first callout's. -/
def earliest (scheduler callout : Option ℕ) : Option ℕ :=
  match scheduler, callout with
  | some a, some b => some (min a b)
  | a, b => a.or b

theorem earliest_eq_none {a b : Option ℕ} : earliest a b = none ↔ a = none ∧ b = none := by
  cases a <;> cases b <;> simp [earliest]

theorem earliest_le {a : Option ℕ} {d : ℕ} : ∃ e, earliest a (some d) = some e ∧ e ≤ d := by
  cases a with
  | none => exact ⟨d, rfl, Nat.le_refl d⟩
  | some a => exact ⟨min a d, rfl, Nat.min_le_right a d⟩

/-- The hardware is set as the clock notes, for what the scheduler and the queue ask. -/
structure Armed (c : LocalClock ι) : Prop where
  programmed : c.programmed = c.deadlines.armed
  armed : c.deadlines.armed = c.deadlines.next
  callout : c.deadlines.callout = c.timers.nextDeadline

variable {c c' : LocalClock ι}

section
omit [DecidableEq ι]

theorem Armed.programmed_eq (h : Armed c) :
    c.programmed = earliest c.deadlines.scheduler c.timers.nextDeadline := by
  rw [h.programmed, h.armed, ← h.callout]
  rfl

theorem change_changed (hc : c.programmed = c.deadlines.armed) {d : Deadlines}
    (hd : d.armed = c.deadlines.armed) :
    let c' := c.change fun _ => d.changed
    c'.programmed = c'.deadlines.armed ∧ c'.deadlines.armed = c'.deadlines.next ∧
      c'.deadlines.callout = d.callout ∧ c'.timers = c.timers := by
  simp only [Deadlines.changed]
  by_cases h : d.next = d.armed
  · rw [if_pos h]
    exact ⟨hc.trans hd.symm, h.symm, rfl, rfl⟩
  · rw [if_neg h]
    exact ⟨rfl, rfl, rfl, rfl⟩

theorem change_timers (f : Deadlines → TimerUpdate × Deadlines) (c : LocalClock ι) :
    (c.change f).timers = c.timers := by
  unfold LocalClock.change
  rcases f c.deadlines with ⟨_ | deadline, d⟩ <;> rfl

theorem Armed.setCallout (hc : c.programmed = c.deadlines.armed) :
    Armed (c.change (Deadlines.setCallout c.timers.nextDeadline)) := by
  obtain ⟨hprogrammed, harmed, hcallout, htimers⟩ := change_changed hc
    (d := { c.deadlines with callout := c.timers.nextDeadline }) rfl
  refine ⟨hprogrammed, harmed, hcallout.trans ?_⟩
  exact congrArg CalendarQueue.nextDeadline htimers.symm

end

/-- A step of the clock of one CPU, with the list of the timers that were inserted and neither
cancelled nor dispatched since. An interrupt runs to its end: it is not nested, and what it wakes
leaves this CPU's deadlines alone. -/
inductive ClockStep : LocalClock ι × List ι → LocalClock ι × List ι → Prop
  | create {c : LocalClock ι} {pending : List ι} {t : ι} (deadlineNs : ℕ)
      (h : (c.timers.timers t).linked = false) : ClockStep (c, pending)
        ({ c with timers := c.timers.withTimer t fun _ => .new deadlineNs }, pending)
  | insertTimer {c c' : LocalClock ι} {pending : List ι} {t : ι} (h : insertTimer t c = .ok () c') :
      ClockStep (c, pending) (c', pending ++ [t])
  | removeTimer {c c' : LocalClock ι} {pending : List ι} {t : ι} (h : removeTimer t c = .ok () c') :
      ClockStep (c, pending) (c', pending.erase t)
  | setScheduler {c c' : LocalClock ι} {pending : List ι} {deadlineNs : ℕ}
      (h : setSchedulerDeadline deadlineNs c = .ok () c') : ClockStep (c, pending) (c', pending)
  | interrupt {c c' : LocalClock ι} {pending expired : List ι} {now : ℕ}
      (h : handleLocalTimerInterrupt now c = .ok expired c') :
      ClockStep (c, pending) (c', pending.diff expired)

def clockMachine (ι : Type) [DecidableEq ι] : Machine (LocalClock ι × List ι) where
  init w := ∃ timers, (∀ t, (timers t).linked = false) ∧ w = (.new timers, [])
  step := ClockStep

structure ClockOk (c : LocalClock ι) (pending : List ι) : Prop where
  queue : Ok c.timers pending
  armed : Armed c

section
variable (h : ClockOk c pending)
include h

theorem insertTimer_ok :
    wp (fun _ => True) (insertTimer t)
    (fun _ c' => ClockOk c' (pending ++ [t])) (fun _ _ => True) c := by
  simp only [insertTimer, onQueue, wp_bind, wp_zoom]
  refine wp_post (insertCallout_ok h.queue) ?_
  intro _ q hq
  exact ⟨by rwa [change_timers], .setCallout h.armed.programmed⟩

theorem removeTimer_ok :
    wp (fun _ => False) (removeTimer t)
    (fun _ c' => ClockOk c' (pending.erase t)) (fun _ _ => False) c := by
  simp only [removeTimer, onQueue, wp_bind, wp_zoom]
  refine wp_post (removeCallout_ok h.queue) ?_
  intro _ q hq
  exact ⟨by rwa [change_timers], .setCallout h.armed.programmed⟩

omit [DecidableEq ι] in
theorem setSchedulerDeadline_ok (deadlineNs : ℕ) :
    wp (fun _ => False) (setSchedulerDeadline deadlineNs) (fun _ c' => ClockOk c' pending)
      (fun _ _ => False) c := by
  refine ⟨by rw [change_timers]; exact h.queue, ?_⟩
  obtain ⟨hprogrammed, harmed, hcallout, htimers⟩ := change_changed h.armed.programmed
    (d := { c.deadlines with scheduler := if deadlineNs ≠ 0 then some deadlineNs else none }) rfl
  refine ⟨hprogrammed, harmed, hcallout.trans (h.armed.callout.trans ?_)⟩
  exact congrArg CalendarQueue.nextDeadline htimers.symm

theorem handleLocalTimerInterrupt_ok (now : ℕ) :
    wp (fun _ => False) (handleLocalTimerInterrupt now) (fun expired c' =>
      expired = (due c.timers pending now).take dispatchBudget ∧
      ClockOk c' (pending.diff expired)) (fun _ _ => False) c := by
  simp only [handleLocalTimerInterrupt, onQueue, wp_bind, wp_zoom, wp_pure]
  refine wp_post (dispatchExpired_ok now dispatchBudget h.queue) ?_
  rintro expired q ⟨hexpired, -, hq⟩
  exact ⟨hexpired, hq, rfl, rfl, rfl⟩

theorem ClockOk.step {w : LocalClock ι × List ι} (hstep : ClockStep (c, pending) w) :
    ClockOk w.1 w.2 := by
  cases hstep with
  | create deadlineNs hlinked =>
    exact ⟨h.queue.create hlinked deadlineNs, h.armed.programmed, h.armed.armed, h.armed.callout⟩
  | insertTimer hcall => exact (wp_ok (insertTimer_ok h) hcall :)
  | removeTimer hcall => exact (wp_ok (removeTimer_ok h) hcall :)
  | setScheduler hcall => exact (wp_ok (setSchedulerDeadline_ok h _) hcall :)
  | interrupt hcall => exact (wp_ok (handleLocalTimerInterrupt_ok h _) hcall).2

end

theorem reachable_clock_ok {w : LocalClock ι × List ι} (hw : (clockMachine ι).Reachable w) :
    ClockOk w.1 w.2 := by
  apply hw.invariant
  · rintro _ ⟨timers, hlinked, rfl⟩
    exact ⟨.new hlinked, rfl, rfl, rfl⟩
  · exact fun _ _ h hstep => h.step hstep

omit [DecidableEq ι] in
theorem ClockOk.covered (h : ClockOk c pending) (ht : t ∈ pending) :
    ∃ deadline, c.programmed = some deadline ∧ deadline ≤ (c.timers.timers t).deadlineNs := by
  have hnext := h.queue.nextDeadline
  have hprogrammed := h.armed.programmed_eq
  cases hdeadline : c.timers.nextDeadline with
  | none =>
    rw [hdeadline] at hnext
    rw [hnext] at ht
    cases ht
  | some d =>
    rw [hdeadline] at hnext hprogrammed
    obtain ⟨e, he, hle⟩ := earliest_le
    exact ⟨e, hprogrammed.trans he, hle.trans (hnext.2 t ht)⟩

end Deadline

/-- In every run each node of the tournament holds the least key of its buckets, the next deadline is
the least one pending, calls return the timers that are due in the order of deadlines and insertions,
and the hardware is set to the earlier of the scheduler's deadline and the first callout's. -/
theorem timer_calendar :
    (∀ w : CalendarQueue ι × List ι, (queueMachine ι).Reachable w →
      (∀ m, 1 ≤ m → m < 2 * buckets → Summary w.1 m) ∧
      (match w.1.nextDeadline with
      | none => w.2 = []
      | some d => (∃ t ∈ w.2, (w.1.timers t).deadlineNs = d) ∧
          ∀ u ∈ w.2, d ≤ (w.1.timers u).deadlineNs) ∧
      w.2.Nodup ∧
      (∀ now, ∃ q', popExpired now w.1 = .ok (due w.1 w.2 now).head? q') ∧
      ∀ now n, ∃ q', dispatchExpired now n w.1 = .ok ((due w.1 w.2 now).take n) q') ∧
    ∀ w : LocalClock ι × List ι, (clockMachine ι).Reachable w →
      w.1.programmed = earliest w.1.deadlines.scheduler w.1.timers.nextDeadline ∧
      (w.1.programmed = none ↔ w.1.deadlines.scheduler = none ∧ w.2 = []) ∧
      ∀ t ∈ w.2, ∃ deadline, w.1.programmed = some deadline ∧
        deadline ≤ (w.1.timers.timers t).deadlineNs := by
  constructor
  · intro w hw
    have hok := reachable_queue_ok hw
    refine ⟨fun m hm hmn => hok.summary hm hmn, hok.nextDeadline, hok.filed.nodup, ?_, ?_⟩
    · intro now
      obtain ⟨_, q', hcall, rfl, -⟩ := wp_returns (popExpired_ok hok now)
      exact ⟨q', hcall⟩
    · intro now n
      obtain ⟨_, q', hcall, rfl, -⟩ := wp_returns (dispatchExpired_ok now n hok)
      exact ⟨q', hcall⟩
  · intro w hw
    have hok := reachable_clock_ok hw
    have hnext := hok.queue.nextDeadline
    refine ⟨hok.armed.programmed_eq, ?_, fun t ht => hok.covered ht⟩
    rw [hok.armed.programmed_eq, earliest_eq_none]
    refine and_congr_right fun _ => ?_
    cases hdeadline : w.1.timers.nextDeadline with
    | none =>
      rw [hdeadline] at hnext
      exact iff_of_true rfl hnext
    | some d =>
      rw [hdeadline] at hnext
      obtain ⟨t, ht, -⟩ := hnext.1
      exact iff_of_false (by simp) (ne_nil_of_mem ht)

theorem timer_calendar_example :
    (∃ w : CalendarQueue ℕ × List ℕ, (queueMachine ℕ).Reachable w ∧
      ∃ q', popExpired 7 w.1 = .ok (some 1) q') ∧
    ∃ w : LocalClock ℕ × List ℕ, (clockMachine ℕ).Reachable w ∧ w.1.programmed = some 4 := by
  have hinit : ∀ t : ℕ, ((fun t => Timer.new (9 - 5 * t)) t).linked = false := fun _ => rfl
  have hqueue : (queueMachine ℕ).Reachable _ :=
    .step (.step (.init ⟨_, hinit, rfl⟩) (.insert (t := 0) rfl)) (.insert (t := 1) rfl)
  have hclock : (clockMachine ℕ).Reachable _ :=
    .step (.step (.init ⟨_, hinit, rfl⟩) (.insertTimer (t := 0) rfl)) (.insertTimer (t := 1) rfl)
  obtain ⟨q', hpop⟩ := (timer_calendar.1 _ hqueue).2.2.2.1 7
  refine ⟨⟨_, hqueue, q', ?_⟩, _, hclock, ?_⟩
  · congr 1
  · decide +kernel

end Roanix.Sys.Clock
