import Mathlib.Data.List.Sort
import Mathlib.Data.Prod.Lex
import Mathlib.Order.WithBot
import Roanix.Lib.Act
import Roanix.Lib.Tournament

/-! The timer queue of one CPU and the deadline that its hardware timer is set to. Callouts are
spread over the buckets of a calendar, and a tournament of the buckets' heads finds the next one. -/
namespace Roanix.Sys.Clock
open Lib Lib.Act Lib.Tournament

def buckets : ℕ := 256
def bucketWidthNs : ℕ := 1000000
/-- The winner of a subtree without a timer. -/
def emptyBucket : ℕ := buckets
def dispatchBudget : ℕ := 64

/-- A deadline and the place in the order of insertions. -/
abbrev Key := ℕ ×ₗ ℕ

structure Timer where
  deadlineNs : ℕ
  order : ℕ
  /-- `link.is_linked()`. -/
  linked : Bool
deriving DecidableEq, Repr

def Timer.new (deadlineNs : ℕ) : Timer := ⟨deadlineNs, 0, false⟩

def Timer.key (timer : Timer) : Key := toLex (timer.deadlineNs, timer.order)

inductive Panic where
  | alreadyArmed
  | sequenceExhausted
  | calloutVanished
  | missingHead
deriving DecidableEq, Repr

/-- `CalendarQueue`, with the timers that it links. A bucket is a tree in the order of keys. -/
structure CalendarQueue (ι : Type) where
  timers : ι → Timer
  buckets : ℕ → List ι
  winners : ℕ → ℕ
  heads : ℕ → Key
  nextOrder : ℕ

abbrev QueueM (ι : Type) := Act Empty Panic (CalendarQueue ι)

variable {ι : Type} [DecidableEq ι]

namespace CalendarQueue

def new (timers : ι → Timer) : CalendarQueue ι :=
  ⟨timers, fun _ => [], fun _ => emptyBucket, fun _ => toLex (0, 0), 0⟩

def bucket (deadlineNs : ℕ) : ℕ := deadlineNs / bucketWidthNs % Clock.buckets

def key (q : CalendarQueue ι) (bucket : ℕ) : Option Key :=
  if bucket = emptyBucket then none else some (q.heads bucket)

def timerKey (q : CalendarQueue ι) (t : ι) : Key := (q.timers t).key

def front (q : CalendarQueue ι) (bucket : ℕ) : Option Key :=
  (q.buckets bucket).head?.map q.timerKey

def play (q : CalendarQueue ι) (a b : ℕ) : ℕ :=
  match q.key a, q.key b with
  | none, _ => b
  | _, none => a
  | some ka, some kb => if ka ≤ kb then a else b

def setLeaf (q : CalendarQueue ι) (bucket : ℕ) : Option Key → CalendarQueue ι
  | some key =>
    { q with
      heads := Function.update q.heads bucket key
      winners := Function.update q.winners (Clock.buckets + bucket) bucket }
  | none => { q with winners := Function.update q.winners (Clock.buckets + bucket) emptyBucket }

/-- Refreshes one bucket's head and its path to the root. A path has eight matches. -/
def update (bucket : ℕ) (q : CalendarQueue ι) : CalendarQueue ι :=
  let node := Clock.buckets + bucket
  let head := q.front bucket
  if head = q.key (q.winners node) then q
  else
    let q := q.setLeaf bucket head
    { q with winners := Tournament.repair q.play 8 node q.winners }

def nextDeadline (q : CalendarQueue ι) : Option ℕ :=
  (q.key (q.winners 1)).map fun key => (ofLex key).1

def withTimer (t : ι) (f : Timer → Timer) (q : CalendarQueue ι) : CalendarQueue ι :=
  { q with timers := Function.update q.timers t (f (q.timers t)) }

/-- A timer with its number goes to its bucket. -/
def linkTimer (t : ι) (q : CalendarQueue ι) : CalendarQueue ι :=
  let q := q.withTimer t fun timer => { timer with order := q.nextOrder, linked := true }
  let bucket := bucket (q.timers t).deadlineNs
  { q with
    nextOrder := q.nextOrder + 1
    buckets := Function.update q.buckets bucket
      ((q.buckets bucket).orderedInsert (fun a b => q.timerKey a ≤ q.timerKey b) t) }

def unlinkTimer (bucket : ℕ) (t : ι) (q : CalendarQueue ι) : CalendarQueue ι :=
  { q.withTimer t fun timer => { timer with linked := false } with
    buckets := Function.update q.buckets bucket ((q.buckets bucket).erase t) }

def updateIf (changesHead : Bool) (bucket : ℕ) (q : CalendarQueue ι) : CalendarQueue ι :=
  if changesHead then q.update bucket else q

end CalendarQueue

open CalendarQueue

def insertCallout (t : ι) : QueueM ι Unit := do
  let q ← get
  check ((q.timers t).linked = false) .alreadyArmed
  check (q.nextOrder + 1 < 2 ^ 64) .sequenceExhausted
  let bucket := bucket (q.timers t).deadlineNs
  let changesHead := (q.key (q.winners (buckets + bucket))).all fun key =>
    decide (toLex ((q.timers t).deadlineNs, q.nextOrder) < key)
  set ((q.linkTimer t).updateIf changesHead bucket)

def removeCallout (t : ι) : QueueM ι Unit := do
  let q ← get
  if (q.timers t).linked then do
    let bucket := bucket (q.timers t).deadlineNs
    let changesHead := decide (q.key (q.winners (buckets + bucket)) = some (q.timerKey t))
    check (t ∈ q.buckets bucket) .calloutVanished
    set ((q.unlinkTimer bucket t).updateIf changesHead bucket)
  else pure ()

/-- `pop_expired`, by the timer whose target it returns. -/
def popExpired (nowNs : ℕ) : QueueM ι (Option ι) := fun q =>
  match q.nextDeadline with
  | none => .ok none q
  | some deadline =>
    if nowNs < deadline then .ok none q
    else
      match (q.buckets (q.winners 1)).head? with
      | none => .panic .missingHead
      | some t => .ok (some t) ((q.unlinkTimer (q.winners 1) t).update (q.winners 1))

/-- A hardware write is distinct from leaving the armed timer alone. -/
inductive TimerUpdate where
  | unchanged
  | program (deadline : Option ℕ)
deriving DecidableEq, Repr

structure Deadlines where
  scheduler : Option ℕ
  callout : Option ℕ
  armed : Option ℕ
deriving DecidableEq, Repr

namespace Deadlines

def next (d : Deadlines) : Option ℕ :=
  match d.scheduler, d.callout with
  | some a, some b => some (min a b)
  | a, b => a.or b

def changed (d : Deadlines) : TimerUpdate × Deadlines :=
  if d.next = d.armed then (.unchanged, d) else (.program d.next, { d with armed := d.next })

def setScheduler (deadline : ℕ) (d : Deadlines) : TimerUpdate × Deadlines :=
  { d with scheduler := if deadline ≠ 0 then some deadline else none }.changed

def setCallout (deadline : Option ℕ) (d : Deadlines) : TimerUpdate × Deadlines :=
  { d with callout := deadline }.changed

def finishInterrupt (now : ℕ) (callout : Option ℕ) (d : Deadlines) : Option ℕ × Deadlines :=
  let scheduler := if d.scheduler.any (· ≤ now) then none else d.scheduler
  let d := { d with callout := callout, scheduler := scheduler }
  (d.next, { d with armed := d.next })

end Deadlines

/-- `LocalClockState`, with the deadline last given to the hardware. -/
structure LocalClock (ι : Type) where
  deadlines : Deadlines
  timers : CalendarQueue ι
  programmed : Option ℕ

abbrev ClockM (ι : Type) := Act Empty Panic (LocalClock ι)

def LocalClock.new (timers : ι → Timer) : LocalClock ι := ⟨⟨none, none, none⟩, .new timers, none⟩

/-- `with_local_clock`, for a change of the deadlines: the hardware is written when told to be. -/
def LocalClock.change (f : Deadlines → TimerUpdate × Deadlines) (c : LocalClock ι) : LocalClock ι :=
  let (update, deadlines) := f c.deadlines
  match update with
  | .program deadline => { c with deadlines := deadlines, programmed := deadline }
  | .unchanged => { c with deadlines := deadlines }

def onQueue {α : Type} (m : QueueM ι α) : ClockM ι α :=
  zoom LocalClock.timers (fun q c => { c with timers := q }) m

def insertTimer (t : ι) : ClockM ι Unit := do
  onQueue (insertCallout t)
  modify fun c => c.change (Deadlines.setCallout c.timers.nextDeadline)

def removeTimer (t : ι) : ClockM ι Unit := do
  onQueue (removeCallout t)
  modify fun c => c.change (Deadlines.setCallout c.timers.nextDeadline)

/-- `set_scheduler_deadline`; `stop` sets none. -/
def setSchedulerDeadline (deadlineNs : ℕ) : ClockM ι Unit :=
  modify fun c => c.change (Deadlines.setScheduler deadlineNs)

/-- The loop of the timer interrupt, by the timers whose targets it wakes. -/
def dispatchExpired (nowNs : ℕ) : ℕ → QueueM ι (List ι)
  | 0 => pure []
  | budget + 1 => do
    match ← popExpired nowNs with
    | none => pure []
    | some t => do
      let rest ← dispatchExpired nowNs budget
      pure (t :: rest)

def handleLocalTimerInterrupt (nowNs : ℕ) : ClockM ι (List ι) := do
  let expired ← onQueue (dispatchExpired nowNs dispatchBudget)
  modify fun c => c.change fun d =>
    let (next, d) := d.finishInterrupt nowNs c.timers.nextDeadline
    (.program next, d)
  pure expired
/-! The tournament of the calendar: each node holds the bucket with the least head under it. -/

variable {ι : Type} {q : CalendarQueue ι} {b : ℕ}

namespace CalendarQueue

def rankOf : Option Key → WithTop Key
  | none => ⊤
  | some key => key

def rank (q : CalendarQueue ι) (b : ℕ) : WithTop Key := rankOf (q.key b)

theorem play_fair (q : CalendarQueue ι) : Fair q.rank q.play := by
  have hplay : ∀ a b, (q.play a b = a ∧ q.rank a ≤ q.rank b) ∨
      (q.play a b = b ∧ q.rank b ≤ q.rank a) := by
    intro a b
    unfold play rank
    cases q.key a with
    | none => exact .inr ⟨rfl, le_top⟩
    | some ka =>
      cases q.key b with
      | none => exact .inl ⟨rfl, le_top⟩
      | some kb =>
        dsimp only [rankOf]
        split_ifs with h
        · exact .inl ⟨rfl, WithTop.coe_le_coe.mpr h⟩
        · exact .inr ⟨rfl, WithTop.coe_le_coe.mpr (le_of_not_ge h)⟩
  constructor
  · intro a b
    exact (hplay a b).imp And.left And.left
  · intro a b
    obtain ⟨h, hle⟩ | ⟨h, hle⟩ := hplay a b <;> rw [h]
    exact hle
  · intro a b
    obtain ⟨h, hle⟩ | ⟨h, hle⟩ := hplay a b <;> rw [h]
    exact hle

end CalendarQueue

/-- The leaves hold their own bucket or none, and every node its winner. -/
structure Tree (q : CalendarQueue ι) : Prop where
  shape : ∀ b, b < buckets → q.winners (buckets + b) = b ∨ q.winners (buckets + b) = emptyBucket
  best : ∀ m, 1 ≤ m → m < 2 * buckets → Best buckets q.rank q.winners m

/-- The leaf of a bucket shows the bucket's head. -/
def Fresh (q : CalendarQueue ι) (b : ℕ) : Prop := q.key (q.winners (buckets + b)) = q.front b

section Leaf
variable {head : Option Key}

theorem setLeaf_winners (q : CalendarQueue ι) (b : ℕ) (head : Option Key) :
    (q.setLeaf b head).winners =
      Function.update q.winners (buckets + b) (if head.isSome then b else emptyBucket) := by
  cases head <;> rfl

theorem setLeaf_key_of_ne (q : CalendarQueue ι) {w : ℕ} (hw : w ≠ b) (head : Option Key) :
    (q.setLeaf b head).key w = q.key w := by
  cases head with
  | none => rfl
  | some k => simp only [CalendarQueue.key, setLeaf, Function.update_of_ne hw]

theorem setLeaf_key_self (q : CalendarQueue ι) (hb : b < buckets) (head : Option Key) :
    (q.setLeaf b head).key (if head.isSome then b else emptyBucket) = head := by
  cases head with
  | none => exact if_pos rfl
  | some k =>
    have hne : b ≠ emptyBucket := Nat.ne_of_lt hb
    simp [CalendarQueue.key, setLeaf, hne]

theorem Tree.winner_ne (hq : Tree q) {x : ℕ} (hn : buckets ≤ x) (hx : x < 2 * buckets)
    (hne : x ≠ buckets + b) (hb : b < buckets) : q.winners x ≠ b := by
  have hshape := hq.shape (x - buckets) (by omega)
  rw [show buckets + (x - buckets) = x by omega] at hshape
  simp only [emptyBucket] at hshape
  omega

theorem Tree.setLeaf_best (hq : Tree q) (hb : b < buckets) {m : ℕ} (hm : 1 ≤ m)
    (hmn : m < 2 * buckets) (habove : Below m (buckets + b) → m = buckets + b) :
    Best buckets (q.setLeaf b head).rank (q.setLeaf b head).winners m := by
  by_cases hleaf : m = buckets + b
  · exact .leaf (by omega) (by omega)
  · have hout : ¬ Below m (buckets + b) := fun h => hleaf (habove h)
    rw [setLeaf_winners]
    refine (hq.best m hm hmn).congr (Function.update_of_ne hleaf _ _) ?_
    intro x hx hn hxn
    have hne : x ≠ buckets + b := fun h => hout (h ▸ hx)
    refine ⟨Function.update_of_ne hne _ _, ?_⟩
    rw [rank, rank, setLeaf_key_of_ne q (hq.winner_ne hn hxn hne hb)]

end Leaf

section Update

theorem update_eq (q : CalendarQueue ι) (b : ℕ) :
    ∃ winners heads, q.update b = { q with winners := winners, heads := heads } := by
  unfold update
  dsimp only
  split_ifs
  · exact ⟨q.winners, q.heads, rfl⟩
  · cases q.front b with
    | none | some k => exact ⟨_, _, rfl⟩

theorem update_front (q : CalendarQueue ι) (b c : ℕ) : (q.update b).front c = q.front c := by
  obtain ⟨winners, heads, h⟩ := update_eq q b
  rw [h]
  rfl

/-- Either the leaf was right, or it is set and the matches above it are played again. -/
theorem update_spec (hq : Tree q) (hb : b < buckets) :
    Tree (q.update b) ∧ Fresh (q.update b) b ∧
      ∀ c, c < buckets → c ≠ b → Fresh q c → Fresh (q.update b) c := by
  by_cases hfresh : q.front b = q.key (q.winners (buckets + b))
  · have hsame : q.update b = q := if_pos hfresh
    rw [hsame]
    exact ⟨hq, hfresh.symm, fun _ _ _ h => h⟩
  · have hupdate : q.update b = { q.setLeaf b (q.front b) with
        winners := repair (q.setLeaf b (q.front b)).play 8 (buckets + b)
          (q.setLeaf b (q.front b)).winners } := if_neg hfresh
    have hkey : (q.update b).key = (q.setLeaf b (q.front b)).key := by rw [hupdate]; rfl
    have hwinners : ∀ c, (q.update b).winners (buckets + c) =
        Function.update q.winners (buckets + b)
          (if (q.front b).isSome then b else emptyBucket) (buckets + c) := by
      intro c
      rw [hupdate, ← setLeaf_winners]
      exact repair_leaf (n := buckets) (by omega) (by omega)
    refine ⟨⟨?_, ?_⟩, ?_, ?_⟩
    · intro c hc
      rw [hwinners]
      by_cases hcb : c = b
      · rw [hcb, Function.update_self]
        split_ifs
        · exact .inl rfl
        · exact .inr rfl
      · rw [Function.update_of_ne (by omega)]
        exact hq.shape c hc
    · intro m hm hmn
      rw [hupdate]
      refine repair_best (play_fair _) ?_ (by simp only [buckets]; omega) (by omega)
        (fun m hm hmn => hq.setLeaf_best hb hm hmn) m hm hmn
      simp only [buckets] at hb ⊢
      omega
    · rw [Fresh, hwinners, hkey, update_front, Function.update_self, setLeaf_key_self q hb]
    · intro c hc hcb h
      have hne : q.winners (buckets + c) ≠ b := hq.winner_ne (by omega) (by omega) (by omega) hb
      rw [Fresh, hwinners, hkey, update_front, Function.update_of_ne (by omega),
        setLeaf_key_of_ne q hne]
      exact h

end Update

end Roanix.Sys.Clock
