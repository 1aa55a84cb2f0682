import Mathlib.Data.List.Count

/-! The waits on an epoll instance (`epoll.rs`). -/
namespace Roanix.Proc.Epoll
open List

def EPOLLERR : BitVec 32 := 0x008#32
def EPOLLHUP : BitVec 32 := 0x010#32
def EPOLLRDHUP : BitVec 32 := 0x2000#32
def EPOLLONESHOT : BitVec 32 := 0x40000000#32
def EPOLLET : BitVec 32 := 0x80000000#32

structure Watch where
  events : BitVec 32
  data : BitVec 64
  lastReady : BitVec 32
  disabled : Bool

/-- The bits of `PollEvents`, `ERR` and `HUP` among them. -/
def pollMask (events : BitVec 32) : BitVec 16 := events.setWidth 16 ||| 0x0008#16 ||| 0x0010#16

namespace Watch

/-- The conditions that hold, by what `poll` of the descriptor answers. -/
def ready (w : Watch) (poll : BitVec 16 → BitVec 16) : BitVec 32 :=
  (poll (pollMask w.events)).setWidth 32 &&& (w.events ||| EPOLLERR ||| EPOLLHUP ||| EPOLLRDHUP)

def report (w : Watch) (ready : BitVec 32) : BitVec 32 :=
  if w.events &&& EPOLLET ≠ 0 then ready &&& ~~~w.lastReady else ready

/-- What its turn in a wait leaves of a watch. -/
def examined (w : Watch) (ready : BitVec 32) : Watch :=
  { w with
    lastReady := ready
    disabled := decide (w.report ready ≠ 0 ∧ w.events &&& EPOLLONESHOT ≠ 0) }

end Watch

variable {κ : Type}

/-- The loop of `collect_ready` over the watches in the order of their keys, with `n` events in the
output; an event comes with its key. -/
def collectReady (poll : κ → BitVec 16 → BitVec 16) (maximum : ℕ) :
    List (κ × Watch) → ℕ → List (κ × Watch) × List (κ × BitVec 32 × BitVec 64)
  | [], _ => ([], [])
  | (k, w) :: rest, n =>
    if n = maximum ∨ w.disabled = true then
      let r := collectReady poll maximum rest n
      ((k, w) :: r.1, r.2)
    else
      let ready := w.ready (poll k)
      if w.report ready = 0 then
        let r := collectReady poll maximum rest n
        ((k, w.examined ready) :: r.1, r.2)
      else
        let r := collectReady poll maximum rest (n + 1)
        ((k, w.examined ready) :: r.1, (k, w.report ready, w.data) :: r.2)

/-- What a wait finds of the process: the descriptors it has, and what each answers to `poll`. -/
structure Answers (κ : Type) where
  contains : κ → Bool
  poll : κ → BitVec 16 → BitVec 16

/-- Waits one after another: the keys each reports. A wait for which an event is ready returns what
its first `collect_ready` gives. -/
def waits (maximum : ℕ) (watches : List (κ × Watch)) : List (Answers κ) → List (List κ)
  | [] => []
  | a :: rest =>
    let r := collectReady a.poll maximum (watches.filter fun p => a.contains p.1) 0
    r.2.map (·.1) :: waits maximum r.1 rest

def crowd (poll : κ → BitVec 16 → BitVec 16) (watches : List (κ × Watch)) : ℕ :=
  watches.countP fun p => p.2.ready (poll p.1) ≠ 0

variable {poll : κ → BitVec 16 → BitVec 16} {maximum : ℕ} {k : κ} {w : Watch}
  {pre post : List (κ × Watch)}

def readable : Answers ℕ := ⟨fun _ => true, fun _ _ => 1⟩

def reader (lastReady : BitVec 32) : Watch := ⟨1, 0, lastReady, false⟩

def OneShot (k : κ) (watches : List (κ × Watch)) : Prop :=
  ∀ p ∈ watches, p.1 = k → p.2.events &&& EPOLLONESHOT ≠ 0

variable [DecidableEq κ] {watches : List (κ × Watch)}

/-- The watches of a key that may still be reported. -/
def armed (k : κ) (watches : List (κ × Watch)) : ℕ :=
  watches.countP fun p => p.1 = k ∧ p.2.disabled = false

/-- Each report of a one-shot watch uses it up. -/
theorem OneShot.collectReady (h : OneShot k watches) (poll : κ → BitVec 16 → BitVec 16)
    (maximum n : ℕ) :
    let r := collectReady poll maximum watches n
    OneShot k r.1 ∧ (r.2.map (·.1)).count k + armed k r.1 ≤ armed k watches := by
  induction watches generalizing n with
  | nil => exact ⟨h, Nat.le_refl _⟩
  | cons p rest ih =>
    obtain ⟨j, v⟩ := p
    obtain ⟨hv, hrest⟩ := forall_mem_cons.mp h
    simp only [armed, Epoll.collectReady] at ih ⊢
    split_ifs with hskip hzero
    · obtain ⟨hshot, hle⟩ := ih hrest n
      refine ⟨forall_mem_cons.mpr ⟨hv, hshot⟩, ?_⟩
      simp only [countP_cons]
      omega
    · obtain ⟨hshot, hle⟩ := ih hrest n
      refine ⟨forall_mem_cons.mpr ⟨hv, hshot⟩, ?_⟩
      simp only [countP_cons, Watch.examined, hzero]
      grind
    · obtain ⟨hshot, hle⟩ := ih hrest (n + 1)
      refine ⟨forall_mem_cons.mpr ⟨hv, hshot⟩, ?_⟩
      simp only [map_cons, count_cons, countP_cons, Watch.examined]
      grind

/-- However many waits there are, they report a one-shot watch once at most. -/
theorem one_shot_is_reported_once (hkeys : (watches.map (·.1)).Nodup) (hone : OneShot k watches)
    (answers : List (Answers κ)) : (waits maximum watches answers).flatten.count k ≤ 1 := by
  have hle : armed k watches ≤ (watches.map (·.1)).count k := by
    rw [count, countP_map]
    exact countP_mono_left fun p _ hp => by simp_all
  refine Nat.le_trans ?_ (Nat.le_trans hle (nodup_iff_count.mp hkeys k))
  clear hkeys hle
  induction answers generalizing watches with
  | nil => exact Nat.zero_le _
  | cons a rest ih =>
    have hopen : OneShot k (watches.filter fun p => a.contains p.1) :=
      fun p hp => hone p (mem_filter.mp hp).1
    obtain ⟨hnext, hcount⟩ := hopen.collectReady a.poll maximum 0
    have hfilter : armed k (watches.filter fun p => a.contains p.1) ≤ armed k watches :=
      filter_sublist.countP_le
    have hlater := ih hnext
    rw [waits, flatten_cons, count_append]
    omega

/-- A watch that stays ready, in two waits. -/
theorem one_shot_is_reported_once_example :
    (waits 1 [(0, ⟨EPOLLONESHOT ||| 1, 0, 0, false⟩)] [readable, readable]).flatten.count 0 ≤ 1 :=
  one_shot_is_reported_once (by decide) (forall_mem_singleton.mpr (by decide)) _

end Roanix.Proc.Epoll
