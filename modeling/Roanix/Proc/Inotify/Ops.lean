import Roanix.Proc.Inotify.Queue

/-! What each operation does to an instance: its indexes, the descriptors given out and the queue. -/
namespace Roanix.Proc.InotifyM
open Lib Lib.Act Option List Index
open Mem.Io

variable {κ : Type} [LinearOrder κ] {s s' : Inotify κ}

inductive Op (κ : Type) where
  | addWatch (key : κ) (mask : UInt32)
  | removeWatch (wd : ℤ)
  | queueForKey (key : κ) (mask cookie : UInt32) (name : Option (List UInt8))
  | read (sink : IoSink)
  | setNonblocking (nonblocking : Bool)

/-- What a caller gets: the descriptor of a new watch, and the bytes of a read. -/
structure Effect where
  fresh : Option ℤ
  received : List UInt8

def ReadResult.received (result : ReadResult) (sink : IoSink) : List UInt8 :=
  match result with
  | .done n => slice sink.bytes 0 n
  | _ => []

def Op.call : Op κ → Call κ Effect
  | .addWatch key mask => do
    let s ← get
    let wd ← InotifyM.addWatch key mask
    pure ⟨if s.byKey.get key = none then some wd else none, []⟩
  | .removeWatch wd => do
    InotifyM.removeWatch wd
    pure ⟨none, []⟩
  | .queueForKey key mask cookie name => do
    InotifyM.queueForKey key mask cookie name
    pure ⟨none, []⟩
  | .read sink => do
    let s ← get
    set (InotifyM.read sink s).2.2
    pure ⟨none, (InotifyM.read sink s).1.received (InotifyM.read sink s).2.1⟩
  | .setNonblocking nonblocking => do
    modify fun s => { s with nonblocking := nonblocking }
    pure ⟨none, []⟩

def ignoredRecord (wd : ℤ) : Record := encodeRecord wd inIgnored 0 none

/-- The events that an operation has to report to the instance. -/
def Op.events (s : Inotify κ) : Op κ → List Record
  | .removeWatch wd => (s.watches.get wd).elim [] fun _ => [ignoredRecord wd]
  | .queueForKey key mask cookie name =>
    (s.byKey.get key).elim [] fun wd => (s.watches.get wd).elim [] fun watch =>
      if watch.mask &&& mask &&& inAllEvents = 0 then []
      else
        encodeRecord wd mask cookie name ::
          if ends watch.mask mask then [ignoredRecord wd] else []
  | _ => []

/-- The counter does not start over, and no event claims to be an overflow. -/
def Meets (s : Inotify κ) : Op κ → Prop
  | .addWatch key _ => s.byKey.get key = none → s.nextWatch ≠ 0
  | .queueForKey _ mask _ _ => mask &&& inQOverflow = 0
  | _ => True

structure IndexOk (s : Inotify κ) : Prop where
  key : ∀ wd watch, s.watches.get wd = some watch → s.byKey.get watch.key = some wd
  watch : ∀ key wd, s.byKey.get key = some wd → ∃ mask, s.watches.get wd = some ⟨key, mask⟩

/-- Descriptors are given out once, in the order of the counter until it leaves the positives. -/
structure IssuedOk (issued : List ℤ) (s : Inotify κ) : Prop where
  nodup : issued.Nodup
  pos : ∀ wd ∈ issued, 0 < wd
  below : 0 < s.nextWatch → ∀ wd ∈ issued, wd < s.nextWatch
  live : ∀ wd watch, s.watches.get wd = some watch → wd ∈ issued

structure Sound (issued : List ℤ) (s : Inotify κ) : Prop where
  index : IndexOk s
  issued : IssuedOk issued s
  queue : QueueOk s

theorem IndexOk.of_eq (hs : IndexOk s) (hw : s'.watches = s.watches) (hk : s'.byKey = s.byKey) :
    IndexOk s' :=
  ⟨hw ▸ hk ▸ hs.key, hw ▸ hk ▸ hs.watch⟩

theorem IndexOk.update {wd : ℤ} {watch : Watch κ} (hs : IndexOk s)
    (h : s.watches.get wd = some watch) (mask : UInt32) :
    IndexOk { s with watches := s.watches.insert wd ⟨watch.key, mask⟩ } where
  key wd' watch' h' := by
    simp only [get_insert] at h'
    split_ifs at h' with heq
    · cases h'
      exact heq ▸ hs.key wd watch h
    · exact hs.key wd' watch' h'
  watch key wd' h' := by
    obtain ⟨mask', hm⟩ := hs.watch key wd' h'
    simp only [get_insert]
    split_ifs with heq
    · subst heq
      rw [h] at hm
      cases hm
      exact ⟨mask, rfl⟩
    · exact ⟨mask', hm⟩

theorem IndexOk.create {wd : ℤ} {key : κ} (hs : IndexOk s) (hwd : s.watches.get wd = none)
    (hkey : s.byKey.get key = none) (mask : UInt32) :
    IndexOk { s with
      watches := s.watches.insert wd ⟨key, mask⟩
      byKey := s.byKey.insert key wd } where
  key wd' watch' h' := by
    simp only [get_insert] at h' ⊢
    split_ifs at h' with heq
    · cases h'
      rw [if_pos rfl, heq]
    · have hold := hs.key wd' watch' h'
      rw [if_neg (fun he => by rw [he, hkey] at hold; cases hold)]
      exact hold
  watch key' wd' h' := by
    simp only [get_insert] at h' ⊢
    split_ifs at h' with heq
    · cases h'
      rw [if_pos rfl, heq]
      exact ⟨mask, rfl⟩
    · obtain ⟨mask', hm⟩ := hs.watch key' wd' h'
      rw [if_neg (fun he => by rw [he, hwd] at hm; cases hm)]
      exact ⟨mask', hm⟩

theorem IndexOk.drop {wd : ℤ} {watch : Watch κ} (hs : IndexOk s)
    (h : s.watches.get wd = some watch) :
    IndexOk { s with watches := s.watches.remove wd, byKey := s.byKey.remove watch.key } where
  key wd' watch' h' := by
    simp only [get_remove] at h' ⊢
    split_ifs at h' with heq
    have hold := hs.key wd' watch' h'
    have hne : watch'.key ≠ watch.key := by
      intro he
      rw [he, hs.key wd watch h] at hold
      exact heq (some.inj hold).symm
    rw [if_neg hne]
    exact hold
  watch key' wd' h' := by
    simp only [get_remove] at h' ⊢
    split_ifs at h' with heq
    obtain ⟨mask, hm⟩ := hs.watch key' wd' h'
    have hne : wd' ≠ wd := by
      intro he
      rw [he, h] at hm
      cases hm
      exact heq rfl
    rw [if_neg hne]
    exact ⟨mask, hm⟩

section
variable {issued : List ℤ} (hs : IssuedOk issued s)
include hs

theorem IssuedOk.of_eq (hn : s'.nextWatch = s.nextWatch)
    (hw : ∀ wd watch, s'.watches.get wd = some watch → ∃ old, s.watches.get wd = some old) :
    IssuedOk issued s' where
  nodup := hs.nodup
  pos := hs.pos
  below := by rw [hn]; exact hs.below
  live wd watch h := by
    obtain ⟨old, hold⟩ := hw wd watch h
    exact hs.live wd old hold

theorem IssuedOk.fresh (h : 0 < s.nextWatch) : s.nextWatch ∉ issued :=
  fun hmem => Int.lt_irrefl _ (hs.below h _ hmem)

theorem IssuedOk.create (h : 0 < s.nextWatch) (watch : Watch κ) (byKey : Index κ ℤ) :
    IssuedOk (issued ++ [s.nextWatch])
      { s with
        nextWatch := fetchAdd s.nextWatch
        watches := s.watches.insert s.nextWatch watch
        byKey := byKey } where
  nodup := nodup_append.mpr ⟨hs.nodup, nodup_singleton _, fun a ha b hb heq =>
    hs.fresh h (mem_singleton.mp hb ▸ heq ▸ ha)⟩
  pos := forall_mem_append.mpr ⟨hs.pos, forall_mem_singleton.mpr h⟩
  below := by
    dsimp only [fetchAdd]
    split_ifs with hlast
    · intro hpos
      omega
    · intro _ wd hwd
      rcases mem_append.mp hwd with hwd | hwd
      · have := hs.below h wd hwd
        omega
      · rw [mem_singleton.mp hwd]
        omega
  live wd watch' hw := by
    simp only [get_insert] at hw
    split_ifs at hw with heq
    · exact mem_append_right _ (mem_singleton.mpr heq)
    · exact mem_append_left _ (hs.live wd watch' hw)

theorem IssuedOk.exhausted (h : ¬ 0 < s.nextWatch) (hzero : s.nextWatch ≠ 0) :
    IssuedOk issued { s with nextWatch := fetchAdd s.nextWatch } where
  nodup := hs.nodup
  pos := hs.pos
  below := by
    dsimp only [fetchAdd]
    split_ifs with hlast
    · intro hpos
      omega
    · intro hpos
      omega
  live := hs.live

end

section Sound
variable {issued : List ℤ} {wd : ℤ} {watch : Watch κ} {key : κ}
  {mask cookie : UInt32} {name : Option (List UInt8)}

theorem Sound.queueRecord (hs : Sound issued s) (hmask : mask &&& inQOverflow = 0) :
    Sound issued (queueRecord wd mask cookie name s) := by
  obtain ⟨hwatches, hbyKey, hnext, -⟩ := queueRecord_frame wd mask cookie name s
  exact ⟨hs.index.of_eq hwatches hbyKey,
    hs.issued.of_eq hnext fun wd watch h => ⟨watch, hwatches ▸ h⟩, hs.queue.queueRecord hmask⟩

theorem Sound.dropWatch (hs : Sound issued s) (h : s.watches.get wd = some watch) :
    Sound issued (dropWatch wd watch.key s) := by
  refine Sound.queueRecord ⟨hs.index.drop h, hs.issued.of_eq rfl fun wd' watch' h' => ?_,
    { hs.queue with }⟩ (by decide)
  simp only [get_remove] at h'
  split_ifs at h'
  exact ⟨watch', h'⟩

theorem QueueOk.dropWatch (hs : QueueOk s) (wd : ℤ) (key : κ) :
    Queued s [ignoredRecord wd] (dropWatch wd key s) := by
  have hq : QueueOk { s with watches := s.watches.remove wd, byKey := s.byKey.remove key } :=
    { hs with }
  exact ⟨hq.queued.grows, hq.queued.all⟩

theorem Sound.report (hs : Sound issued s) (h : s.watches.get wd = some watch)
    (hkey : watch.key = key) (hmask : mask &&& inQOverflow = 0) :
    Sound issued (report wd watch key mask cookie name s) := by
  have hw : (InotifyM.queueRecord wd mask cookie name s).watches.get wd = some watch := by
    rw [(queueRecord_frame wd mask cookie name s).1, h]
  unfold InotifyM.report
  split_ifs with hno hends
  · exact hs
  · exact hkey ▸ (hs.queueRecord hmask).dropWatch hw
  · exact hs.queueRecord hmask

theorem QueueOk.report (hs : QueueOk s) (hmask : mask &&& inQOverflow = 0) (wd : ℤ)
    (watch : Watch κ) (key : κ) :
    Queued s
      (if watch.mask &&& mask &&& inAllEvents = 0 then []
        else encodeRecord wd mask cookie name ::
          if ends watch.mask mask then [ignoredRecord wd] else [])
      (report wd watch key mask cookie name s) := by
  unfold InotifyM.report
  split_ifs with hno hends
  · exact .of_eq rfl
  · exact hs.queued.trans ((hs.queueRecord hmask).dropWatch wd key)
  · exact hs.queued

theorem wp_indexedWatch {T : Panic → Prop} {Q : Watch κ → Inotify κ → Prop}
    {E : Errno → Inotify κ → Prop} (h : s.watches.get wd = some watch) (hQ : Q watch s) :
    wp T (indexedWatch wd) Q E s := by
  simpa only [wp, indexedWatch, h] using hQ

section
variable (hs : Sound issued s)
include hs

theorem Sound.addWatch (hmeets : s.byKey.get key = none → s.nextWatch ≠ 0) :
    wp (fun _ => False) (addWatch key mask)
      (fun wd s' => Sound (issued ++ (if s.byKey.get key = none then some wd else none).toList) s' ∧
        Queued s [] s')
      (fun _ s' => Sound issued s' ∧ Queued s [] s') s := by
  unfold InotifyM.addWatch validateMask
  rw [wp_bind]
  refine wp_ensure (fun _ => ?_) fun _ => ⟨hs, .of_eq rfl⟩
  rw [wp_bind, wp_get]
  cases hkey : s.byKey.get key with
  | some wd =>
    obtain ⟨old, hwatch⟩ := hs.index.watch key wd hkey
    dsimp only
    unfold updateWatch
    rw [wp_bind]
    refine wp_indexedWatch hwatch ?_
    rw [wp_bind, wp_modify, wp_pure]
    simp only [reduceCtorEq, if_false, toList_none, append_nil]
    refine ⟨⟨hs.index.update hwatch _, hs.issued.of_eq rfl fun wd' watch' h' => ?_,
      { hs.queue with }⟩, .of_eq rfl⟩
    simp only [get_insert] at h'
    split_ifs at h' with heq
    · exact ⟨_, heq ▸ hwatch⟩
    · exact ⟨watch', h'⟩
  | none =>
    have hqueue : QueueOk { s with nextWatch := fetchAdd s.nextWatch } :=
      { hs.queue with }
    dsimp only
    unfold createWatch
    rw [wp_bind, wp_get, wp_bind, wp_set, wp_bind]
    refine wp_ensure (fun hpos => ?_) fun hneg => ?_
    · have hfree : s.watches.get s.nextWatch = none := by
        by_contra hsome
        obtain ⟨watch, hw⟩ := ne_none_iff_exists'.mp hsome
        exact hs.issued.fresh hpos (hs.issued.live _ _ hw)
      rw [wp_bind, wp_modify, wp_pure, if_pos rfl]
      exact ⟨⟨(hs.index.create hfree hkey _).of_eq rfl rfl, hs.issued.create hpos _ _,
        { hs.queue with }⟩, .of_eq rfl⟩
    · exact ⟨⟨hs.index.of_eq rfl rfl, hs.issued.exhausted hneg (hmeets hkey), hqueue⟩, .of_eq rfl⟩

theorem Sound.removeWatch :
    wp (fun _ => False) (removeWatch wd)
      (fun _ s' => Sound issued s' ∧ Queued s ((Op.removeWatch wd).events s) s')
      (fun _ s' => Sound issued s' ∧ Queued s ((Op.removeWatch wd).events s) s') s := by
  unfold InotifyM.removeWatch
  rw [wp_bind, wp_get, wp_bind]
  refine wp_okOr (fun watch hwatch => ?_) fun hnone => ?_
  · have hevents : (Op.removeWatch wd).events s = [ignoredRecord wd] := by
      simp only [Op.events, hwatch, elim_some]
    rw [wp_set, hevents]
    exact ⟨hs.dropWatch hwatch, hs.queue.dropWatch wd watch.key⟩
  · have hevents : (Op.removeWatch wd).events s = [] := by
      simp only [Op.events, hnone, elim_none]
    rw [hevents]
    exact ⟨hs, .of_eq rfl⟩

theorem Sound.queueForKey (hmask : mask &&& inQOverflow = 0) :
    wp (fun _ => False) (queueForKey key mask cookie name)
      (fun _ s' => Sound issued s' ∧ Queued s ((Op.queueForKey key mask cookie name).events s) s')
      (fun _ _ => False) s := by
  unfold InotifyM.queueForKey
  rw [wp_bind, wp_get]
  cases hkey : s.byKey.get key with
  | none =>
    have hevents : (Op.queueForKey key mask cookie name).events s = [] := by
      simp only [Op.events, hkey, elim_none]
    rw [hevents]
    exact ⟨hs, .of_eq rfl⟩
  | some wd =>
    obtain ⟨old, hwatch⟩ := hs.index.watch key wd hkey
    dsimp only
    rw [wp_bind]
    refine wp_indexedWatch hwatch ?_
    rw [wp_modify]
    simp only [Op.events, hkey, hwatch, elim_some]
    exact ⟨hs.report hwatch rfl hmask, hs.queue.report hmask wd ⟨key, old⟩ key⟩

theorem Sound.read (sink : IoSink) :
    Sound issued (read sink s).2.2 ∧ ∃ front, s.queue = front ++ (read sink s).2.2.queue ∧
      (read sink s).1.received (read sink s).2.1 = front.flatten := by
  obtain ⟨front, htook, hres⟩ := read_spec hs.queue sink
  have hreceived : (InotifyM.read sink s).1.received (InotifyM.read sink s).2.1 = front.flatten := by
    cases hresult : (InotifyM.read sink s).1 with
    | done n =>
      rw [hresult] at hres
      exact hres.2.2
    | failed e | sleeps =>
      rw [hresult] at hres
      rw [hres]
      rfl
  refine ⟨⟨hs.index.of_eq htook.watches htook.byKey,
    hs.issued.of_eq htook.nextWatch fun wd watch h => ⟨watch, htook.watches ▸ h⟩,
    htook.ok hs.queue⟩, front, htook.queue, hreceived⟩

/-- Each call that meets the condition leaves a sound instance, adds to the queue only what it had
to report, and does not stop; a read takes from the queue what it returns. -/
theorem Sound.call {op : Op κ} (hmeets : Meets s op) :
    wp (fun _ => False) op.call
      (fun effect s' => Sound (issued ++ effect.fresh.toList) s' ∧
        ∃ front, effect.received = front.flatten ∧
          ((∃ sink, op = .read sink) ∧ s.queue = front ++ s'.queue ∨
            front = [] ∧ Queued s (op.events s) s'))
      (fun _ s' => Sound issued s' ∧ Queued s (op.events s) s') s := by
  cases op with
  | addWatch key mask =>
    dsimp only [Op.call]
    rw [wp_bind, wp_get, wp_bind]
    refine wp_post (hs.addWatch hmeets) ?_
    rintro wd s' ⟨hsound, hqueued⟩
    exact ⟨hsound, [], rfl, .inr ⟨rfl, hqueued⟩⟩
  | removeWatch wd =>
    dsimp only [Op.call]
    rw [wp_bind]
    refine wp_post hs.removeWatch ?_
    rintro _ s' ⟨hsound, hqueued⟩
    rw [wp_pure, toList_none, append_nil]
    exact ⟨hsound, [], rfl, .inr ⟨rfl, hqueued⟩⟩
  | queueForKey key mask cookie name =>
    dsimp only [Op.call]
    rw [wp_bind]
    refine wp_imp (hs.queueForKey hmeets) ?_ fun _ _ h => h.elim
    rintro _ s' ⟨hsound, hqueued⟩
    rw [wp_pure, toList_none, append_nil]
    exact ⟨hsound, [], rfl, .inr ⟨rfl, hqueued⟩⟩
  | read sink =>
    obtain ⟨hsound, front, hqueue, hreceived⟩ := hs.read sink
    dsimp only [Op.call]
    rw [wp_bind, wp_get, wp_bind, wp_set, wp_pure, toList_none, append_nil]
    exact ⟨hsound, front, hreceived, .inl ⟨⟨sink, rfl⟩, hqueue⟩⟩
  | setNonblocking nonblocking =>
    dsimp only [Op.call]
    rw [wp_bind, wp_modify, wp_pure, toList_none, append_nil]
    refine ⟨⟨hs.index.of_eq rfl rfl, hs.issued.of_eq rfl fun wd watch h => ⟨watch, h⟩,
      { hs.queue with }⟩, [], rfl, .inr ⟨rfl, ?_⟩⟩
    exact .of_eq rfl

end

end Sound

end Roanix.Proc.InotifyM
