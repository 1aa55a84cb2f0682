import Roanix.Lib.Machine
import Roanix.Proc.Inotify.Ops

/-! Runs of one instance. Beside the instance stand the descriptors that were ever given out, the
records that were ever queued and the bytes that reads have returned. -/
namespace Roanix.Proc.InotifyM
open Lib Lib.Act List Index
open Mem.Io

variable {κ : Type} [LinearOrder κ] {s : Inotify κ}

structure World (κ : Type) [LinearOrder κ] where
  inotify : Inotify κ
  issued : List ℤ
  sent : List Record
  received : List UInt8

/-- One operation, with its effect noted. What it queued is the part of the queue beyond its old
length. -/
inductive Step : World κ → Op κ → World κ → Prop
  | ok {w : World κ} {op : Op κ} {effect : Effect} {s' : Inotify κ}
    (h : op.call w.inotify = .ok effect s') :
    Step w op ⟨s', w.issued ++ effect.fresh.toList,
      w.sent ++ s'.queue.drop w.inotify.queue.length, w.received ++ effect.received⟩
  | err {w : World κ} {op : Op κ} {e : Errno} {s' : Inotify κ}
    (h : op.call w.inotify = .err e s') :
    Step w op ⟨s', w.issued, w.sent ++ s'.queue.drop w.inotify.queue.length, w.received⟩

def World.new (nonblocking : Bool) : World κ := ⟨.new nonblocking, [], [], []⟩

def machine (κ : Type) [LinearOrder κ] : Machine (World κ) where
  init w := ∃ nonblocking, w = .new nonblocking
  step w w' := ∃ op, Step w op w'

def boundedMachine (κ : Type) [LinearOrder κ] : Machine (World κ) where
  init w := ∃ nonblocking, w = .new nonblocking
  step w w' := ∃ op, Meets w.inotify op ∧ Step w op w'

/-- What was queued is what reads have returned, followed by what is queued. -/
def Log (sent : List Record) (received : List UInt8) (queue : List Record) : Prop :=
  ∃ delivered, sent = delivered ++ queue ∧ received = delivered.flatten

structure Inv (w : World κ) : Prop where
  sound : Sound w.issued w.inotify
  log : Log w.sent w.received w.inotify.queue

theorem Log.extend {sent queue queue' : List Record} {received : List UInt8}
    (h : Log sent received queue) (hgrows : queue <+: queue') :
    Log (sent ++ queue'.drop queue.length) received queue' := by
  obtain ⟨delivered, rfl, rfl⟩ := h
  obtain ⟨new, rfl⟩ := hgrows
  exact ⟨delivered, by rw [drop_left, append_assoc], rfl⟩

theorem Log.take {sent front queue' : List Record} {received : List UInt8}
    (h : Log sent received (front ++ queue')) :
    Log (sent ++ queue'.drop (front ++ queue').length) (received ++ front.flatten) queue' := by
  obtain ⟨delivered, rfl, rfl⟩ := h
  have hnothing : queue'.drop (front ++ queue').length = [] :=
    drop_eq_nil_of_le (by rw [length_append]; exact Nat.le_add_left _ _)
  exact ⟨delivered ++ front, by rw [hnothing, append_nil, append_assoc],
    flatten_append.symm⟩

theorem Inv.new (nonblocking : Bool) : Inv (.new nonblocking : World κ) where
  sound := {
    index := ⟨fun _ _ h => (by cases h), fun _ _ h => (by cases h)⟩
    issued := ⟨nodup_nil, fun _ h => (by cases h), fun _ _ h => (by cases h),
      fun _ _ h => (by cases h)⟩
    queue := ⟨fun _ h => (by cases h), rfl, Nat.zero_le _, rfl⟩ }
  log := ⟨[], rfl, rfl⟩

theorem Inv.step {w w' : World κ} {op : Op κ} (hw : Inv w) (hmeets : Meets w.inotify op)
    (h : Step w op w') : Inv w' := by
  have hcall := hw.sound.call hmeets
  have hlog := hw.log
  cases h with
  | ok h =>
    obtain ⟨hsound, front, hreceived, hqueue⟩ := wp_ok hcall h
    refine ⟨hsound, ?_⟩
    rw [hreceived]
    rcases hqueue with ⟨-, hqueue⟩ | ⟨rfl, hqueued⟩
    · rw [hqueue] at hlog ⊢
      exact hlog.take
    · rw [flatten_nil, append_nil]
      exact hlog.extend hqueued.grows
  | err h =>
    obtain ⟨hsound, hqueued⟩ := wp_err hcall h
    exact ⟨hsound, hlog.extend hqueued.grows⟩

theorem Inv.of_reachable {w : World κ} (hw : (boundedMachine κ).Reachable w) : Inv w := by
  refine hw.invariant ?_ ?_
  · rintro _ ⟨nonblocking, rfl⟩
    exact .new nonblocking
  · rintro w w' hinv ⟨op, hmeets, hstep⟩
    exact hinv.step hmeets hstep

/-- In every run that meets the condition the indexes are inverse bijections, no descriptor is given
out twice, the queued bytes are counted and bounded, and the latch stands for one overflow record;
what was queued is what was returned followed by the queue, and a loss leaves the overflow record
there; a read that fails takes nothing; and no assertion fails. -/
theorem inotify_invariant {w : World κ} (hw : (boundedMachine κ).Reachable w) :
    (∀ key wd, w.inotify.byKey.get key = some wd ↔
      ∃ mask, w.inotify.watches.get wd = some ⟨key, mask⟩) ∧
    w.issued.Nodup ∧
    (∀ wd watch, w.inotify.watches.get wd = some watch → wd ∈ w.issued) ∧
    w.inotify.queuedBytes = (w.inotify.queue.map List.length).sum ∧
    w.inotify.queuedBytes ≤ maxQueueBytes + overflowRecord.length ∧
    (w.inotify.queue.filter IsOverflow =
      if w.inotify.overflowed then [overflowRecord] else []) ∧
    (∃ delivered, w.sent = delivered ++ w.inotify.queue ∧ w.received = delivered.flatten) ∧
    (∀ op s', Meets w.inotify op → op.call.Leaves w.inotify s' → (∀ sink, op ≠ .read sink) →
      w.inotify.queue <+: s'.queue ∧
        (s'.queue = w.inotify.queue ++ op.events w.inotify ∨ overflowRecord ∈ s'.queue)) ∧
    (∀ sink, ∃ front, w.inotify.queue = front ++ (read sink w.inotify).2.2.queue ∧
      match (read sink w.inotify).1 with
      | .done n => front ≠ [] ∧ n = front.flatten.length ∧
          slice (read sink w.inotify).2.1.bytes 0 n = front.flatten
      | _ => front = []) ∧
    ∀ op r, Meets w.inotify op → op.call w.inotify ≠ .panic r := by
  have hinv := Inv.of_reachable hw
  have hindex := hinv.sound.index
  have hqueue := hinv.sound.queue
  refine ⟨fun key wd => ⟨hindex.watch key wd, ?_⟩, hinv.sound.issued.nodup, hinv.sound.issued.live,
    hqueue.bytes, ?_, hqueue.latch, hinv.log, ?_, ?_, ?_⟩
  · rintro ⟨mask, h⟩
    exact hindex.key wd _ h
  · have hbound := hqueue.bound
    rw [length_overflowRecord]
    split_ifs at hbound <;> omega
  · intro op s' hmeets hleaves hread
    suffices hqueued : Queued w.inotify (op.events w.inotify) s' from ⟨hqueued.grows, hqueued.all⟩
    refine wp_leaves (hinv.sound.call hmeets) hleaves (fun effect h => ?_) fun _ h => h.2
    obtain ⟨-, front, -, ⟨⟨sink, heq⟩, -⟩ | ⟨-, hqueued⟩⟩ := h
    · exact absurd heq (hread sink)
    · exact hqueued
  · intro sink
    obtain ⟨front, htook, hres⟩ := read_spec hqueue sink
    exact ⟨front, htook.queue, hres⟩
  · intro op r hmeets hpanic
    exact wp_panic (hinv.sound.call hmeets) hpanic

theorem inotify_invariant_example : ∃ w : World ℕ, (boundedMachine ℕ).Reachable w ∧
    w.inotify.queue = [encodeRecord 1 inModify 0 none] ∧
    w.inotify.queuedBytes = (w.inotify.queue.map List.length).sum := by
  have hadd : (boundedMachine ℕ).Reachable _ :=
    .step (.init ⟨false, rfl⟩) ⟨.addWatch 7 inModify, fun _ => by decide, .ok rfl⟩
  have hevent : (boundedMachine ℕ).Reachable _ :=
    .step hadd ⟨.queueForKey 7 inModify 0 none, show inModify &&& inQOverflow = 0 from by decide, .ok rfl⟩
  exact ⟨_, hevent, rfl, (inotify_invariant hevent).2.2.2.1⟩

section Wrap
variable {key : κ}

theorem valid_inModify : ¬ (inModify &&& inAllEvents = 0 ∨
    inModify &&& ~~~(inAllEvents ||| inControlFlags) ≠ 0) := by decide

theorem addWatch_of_unwatched (h : s.byKey.get key = none) :
    addWatch key inModify s = createWatch key inModify s := by
  rw [addWatch, validateMask, bind_ok (ensure_ok valid_inModify _ s), bind_ok (get_ok s), h]

def watched (key : κ) (s : Inotify κ) : Inotify κ :=
  { s with
    nextWatch := fetchAdd s.nextWatch
    watches := s.watches.insert s.nextWatch ⟨key, inModify⟩
    byKey := s.byKey.insert key s.nextWatch }

theorem addWatch_created (hkey : s.byKey.get key = none) (hpos : 0 < s.nextWatch) :
    (Op.addWatch key inModify).call s = .ok ⟨some s.nextWatch, []⟩ (watched key s) := by
  have hcreate : addWatch key inModify s = .ok s.nextWatch (watched key s) := by
    rw [addWatch_of_unwatched hkey, createWatch, bind_ok (get_ok s), bind_ok (set_ok _ s),
      bind_ok (ensure_ok hpos _ _)]
    rfl
  rw [Op.call, bind_ok (get_ok s), bind_ok hcreate, if_pos hkey]
  rfl

theorem addWatch_exhausted (hkey : s.byKey.get key = none) (hneg : ¬ 0 < s.nextWatch) :
    (Op.addWatch key inModify).call s =
      .err .overflow { s with nextWatch := fetchAdd s.nextWatch } := by
  have hcreate : addWatch key inModify s =
      .err .overflow { s with nextWatch := fetchAdd s.nextWatch } := by
    rw [addWatch_of_unwatched hkey, createWatch, bind_ok (get_ok s), bind_ok (set_ok _ s),
      bind_err (ensure_err hneg _ _)]
  rw [Op.call, bind_ok (get_ok s), bind_err hcreate]

theorem addWatch_lost (wd : ℤ) (hkey : s.byKey.get key = some wd) (hlost : s.watches.get wd = none) :
    (Op.addWatch key inModify).call s = .panic .keyIndexLostWatch := by
  have hindexed : indexedWatch wd s = .panic .keyIndexLostWatch := by
    rw [indexedWatch, hlost]
  have hadd : addWatch key inModify s = .panic .keyIndexLostWatch := by
    rw [addWatch, validateMask, bind_ok (ensure_ok valid_inModify _ s), bind_ok (get_ok s), hkey]
    exact bind_panic hindexed
  rw [Op.call, bind_ok (get_ok s), bind_panic hadd]

theorem queueForKey_reported {mask cookie : UInt32} {name : Option (List UInt8)} (wd : ℤ)
    (watch : Watch κ) (hkey : s.byKey.get key = some wd) (hwatch : s.watches.get wd = some watch) :
    (Op.queueForKey key mask cookie name).call s =
      .ok ⟨none, []⟩ (report wd watch key mask cookie name s) := by
  have hindexed : indexedWatch wd s = .ok watch s := by rw [indexedWatch, hwatch]
  have hqueue : queueForKey key mask cookie name s =
      .ok () (report wd watch key mask cookie name s) := by
    rw [queueForKey, bind_ok (get_ok s), hkey]
    exact bind_ok hindexed
  rw [Op.call, bind_ok hqueue]
  rfl

theorem get_watched (key : κ) (s : Inotify κ) :
    (watched key s).watches.get s.nextWatch = some ⟨key, inModify⟩ := by
  rw [watched, get_insert, if_pos rfl]

theorem removeWatch_removed {wd : ℤ} {watch : Watch κ} (h : s.watches.get wd = some watch) :
    (Op.removeWatch wd).call s = .ok ⟨none, []⟩ (dropWatch wd watch.key s) := by
  have hremove : removeWatch wd s = .ok () (dropWatch wd watch.key s) := by
    rw [removeWatch, bind_ok (get_ok s), h]
    rfl
  rw [Op.call, bind_ok hremove]
  rfl

theorem dropWatch_frame (wd : ℤ) (key : κ) (s : Inotify κ) :
    (dropWatch wd key s).watches = s.watches.remove wd ∧
      (dropWatch wd key s).byKey = s.byKey.remove key ∧
      (dropWatch wd key s).nextWatch = s.nextWatch := by
  obtain ⟨hw, hk, hn, -⟩ := queueRecord_frame wd inIgnored 0 none
    { s with watches := s.watches.remove wd, byKey := s.byKey.remove key }
  exact ⟨hw, hk, hn⟩

structure Alone (n : ℤ) (s : Inotify ℕ) : Prop where
  watches : s.watches = Index.empty.insert 1 ⟨0, inModify⟩
  byKey : s.byKey = Index.empty.insert 0 1
  nextWatch : s.nextWatch = n

theorem Alone.next {n : ℤ} {w : World ℕ} (hw : (machine ℕ).Reachable w) (h : Alone n w.inotify)
    (hn : n ≠ 1) : ∃ w', (machine ℕ).Reachable w' ∧ Alone (fetchAdd n) w'.inotify := by
  have hkey : w.inotify.byKey.get 5 = none := by rw [h.byKey]; rfl
  have hnext := h.nextWatch
  by_cases hpos : 0 < w.inotify.nextWatch
  · have hfree : w.inotify.watches.get w.inotify.nextWatch = none := by
      rw [h.watches, get_insert, if_neg (hnext ▸ hn), get_empty]
    have hadded : (machine ℕ).Reachable _ := .step hw ⟨_, .ok (addWatch_created hkey hpos)⟩
    refine ⟨_, .step hadded ⟨_, .ok (removeWatch_removed (get_watched 5 w.inotify))⟩, ?_⟩
    obtain ⟨hwatches, hbyKey, hcounter⟩ := dropWatch_frame w.inotify.nextWatch 5 (watched 5 w.inotify)
    refine ⟨?_, ?_, ?_⟩
    · rw [hwatches, watched, remove_insert_of_none hfree, h.watches]
    · rw [hbyKey, watched, remove_insert_of_none hkey, h.byKey]
    · rw [hcounter, watched, hnext]
  · exact ⟨_, .step hw ⟨_, .err (addWatch_exhausted hkey hpos)⟩, h.watches, h.byKey,
      congrArg fetchAdd hnext⟩

theorem Alone.after (k : ℕ) (hk : k < 2 ^ 32) : ∃ w, (machine ℕ).Reachable w ∧
    Alone (if k < 2 ^ 31 - 2 then 2 + k else 2 + k - 2 ^ 32) w.inotify := by
  induction k with
  | zero => exact ⟨_, .step (.init ⟨false, rfl⟩) ⟨.addWatch 0 inModify, .ok rfl⟩, rfl, rfl, rfl⟩
  | succ k ih =>
    obtain ⟨w, hw, h⟩ := ih (by omega)
    have hnext := h.next hw (by split_ifs <;> omega)
    have hadd : fetchAdd (if k < 2 ^ 31 - 2 then 2 + k else 2 + k - 2 ^ 32) =
        (if k + 1 < 2 ^ 31 - 2 then 2 + (k + 1 : ℕ) else 2 + (k + 1 : ℕ) - 2 ^ 32 : ℤ) := by
      unfold fetchAdd
      split_ifs <;> omega
    rwa [hadd] at hnext

/-- A descriptor given out twice leaves a key without its watch, and the next watch of that vnode
stops. -/
theorem reachable_panic : ∃ w : World ℕ, (machine ℕ).Reachable w ∧
    ∃ op r, Op.call op w.inotify = .panic r := by
  obtain ⟨w, hw, (h : Alone 1 w.inotify)⟩ := Alone.after (2 ^ 32 - 1) (by omega)
  have hkey : w.inotify.byKey.get 5 = none := by rw [h.byKey]; rfl
  have hpos : 0 < w.inotify.nextWatch := by rw [h.nextWatch]; omega
  have hadded : (machine ℕ).Reachable _ := .step hw ⟨_, .ok (addWatch_created hkey hpos)⟩
  refine ⟨_, .step hadded ⟨_, .ok (removeWatch_removed (get_watched 5 w.inotify))⟩,
    .addWatch 0 inModify, .keyIndexLostWatch, addWatch_lost 1 ?_ ?_⟩
  · rw [(dropWatch_frame w.inotify.nextWatch 5 (watched 5 w.inotify)).2.1, watched, h.byKey]
    rfl
  · rw [(dropWatch_frame w.inotify.nextWatch 5 (watched 5 w.inotify)).1, get_remove,
      if_pos h.nextWatch.symm]

theorem paddedNameLength_replicate (n : ℕ) :
    n < paddedNameLength (some (List.replicate n 0)) := by
  simp only [paddedNameLength, Option.elim_some, length_replicate]
  omega

/-- An event that carries the overflow bit clears the latch when it is read, with the overflow
record still in the queue. -/
theorem reachable_unlatched : ∃ w : World ℕ, (machine ℕ).Reachable w ∧
    w.inotify.overflowed = false ∧ overflowRecord ∈ w.inotify.queue := by
  have hadd : (machine ℕ).Reachable _ := .step (.init ⟨false, rfl⟩) ⟨.addWatch 0 inModify, .ok rfl⟩
  have hevent : (machine ℕ).Reachable _ :=
    .step hadd ⟨.queueForKey 0 (inModify ||| inQOverflow) 0 none, .ok rfl⟩
  let s : Inotify ℕ :=
    ⟨empty.insert 1 ⟨0, inModify⟩, empty.insert 0 1,
      [encodeRecord 1 (inModify ||| inQOverflow) 0 none], 16, false, 2, false⟩
  let full : Inotify ℕ :=
    { s with overflowed := true, queuedBytes := 32, queue := s.queue ++ [overflowRecord] }
  have hlost : (Op.queueForKey 0 inModify 0 (some (replicate maxQueueBytes 0))).call s =
      .ok ⟨none, []⟩ full := by
    have hreport : report 1 ⟨0, inModify⟩ 0 inModify 0 (some (replicate maxQueueBytes 0)) s =
        full := by
      have hlong := paddedNameLength_replicate maxQueueBytes
      rw [report, if_neg (by decide), if_neg (by decide), queueRecord, if_pos (by omega)]
      rfl
    rw [queueForKey_reported 1 ⟨0, inModify⟩ rfl rfl, hreport]
  have hfull : (machine ℕ).Reachable _ := .step hevent ⟨_, .ok hlost⟩
  exact ⟨_, .step hfull ⟨.read ⟨replicate 16 0, none, fun _ => false⟩, .ok rfl⟩, rfl,
    mem_singleton_self _⟩

/-- Two runs that break the invariant: a counter that starts over, and an event that claims to be
an overflow. -/
theorem inotify_invariant_fails :
    (∃ w : World ℕ, (machine ℕ).Reachable w ∧ ∃ op r, Op.call op w.inotify = .panic r) ∧
    ∃ w : World ℕ, (machine ℕ).Reachable w ∧ w.inotify.overflowed = false ∧
      overflowRecord ∈ w.inotify.queue :=
  ⟨reachable_panic, reachable_unlatched⟩

end Wrap

end Roanix.Proc.InotifyM
