import Roanix.Proc.Signal.Basic

/-! What holds of the signal state of a process after any operations. -/
namespace Roanix.Proc.Signal
open List SignalManager

variable {signal : ℕ} {info : SignalInfo} {queue : List SignalInfo} {test : SignalInfo → Bool}

theorem isStopSignal_ne (h : isStopSignal signal = true) : signal ≠ sigcont ∧ signal ≠ sigkill := by
  simp only [isStopSignal, mem_cons, not_mem_nil, or_false, decide_eq_true_eq] at h
  rcases h with rfl | rfl | rfl | rfl <;> decide

theorem cancels_eq_true {pending : SignalInfo} : cancels info pending = true ↔
    (info.signal = sigcont ∨ info.signal = sigkill) ∧ isStopSignal pending.signal = true ∨
      isStopSignal info.signal = true ∧ pending.signal = sigcont := by
  have hne : isStopSignal info.signal = true → _ := isStopSignal_ne
  unfold cancels
  split_ifs with hcont hstop
  · constructor
    · exact fun h => .inl ⟨hcont, h⟩
    · rintro (⟨-, h⟩ | ⟨h, -⟩)
      · exact h
      · exact absurd hcont (not_or.mpr (hne h))
  · simp only [hcont, hstop, decide_eq_true_eq, false_and, true_and, false_or]
  · simp only [hcont, hstop, false_and, or_self, Bool.false_eq_true]

/-- A pair of signals of which at most one is pending, unless they are real-time signals. -/
def Apart (a b : SignalInfo) : Prop := a.signal = b.signal → sigrtmin ≤ a.signal

/-- Two instances of one real-time signal stand in the order in which they were raised. -/
def Ordered (a b : SignalInfo) : Prop :=
  a.signal = b.signal → sigrtmin ≤ a.signal → a.serial < b.serial

structure QueueOk (queue : List SignalInfo) : Prop where
  apart : queue.Pairwise Apart
  increasing : queue.Pairwise (·.serial < ·.serial)
  stops : ∀ a ∈ queue, a.signal = sigcont → ∀ b ∈ queue, isStopSignal b.signal = false
  asynchronous : ∀ a ∈ queue, sigrtmin ≤ a.signal → a.synchronous = false

theorem QueueOk.sublist {queue' : List SignalInfo} (h : QueueOk queue) (hs : queue'.Sublist queue) :
    QueueOk queue' where
  apart := h.apart.sublist hs
  increasing := h.increasing.sublist hs
  stops a ha hc b hb := h.stops a (hs.subset ha) hc b (hs.subset hb)
  asynchronous a ha := h.asynchronous a (hs.subset ha)

theorem QueueOk.append (h : QueueOk queue)
    (hnew : ∀ a ∈ queue, a.signal = info.signal → sigrtmin ≤ info.signal)
    (hlast : ∀ a ∈ queue, a.serial < info.serial) (hkept : ∀ a ∈ queue, cancels info a = false)
    (hasync : sigrtmin ≤ info.signal → info.synchronous = false) : QueueOk (queue ++ [info]) where
  apart := by
    refine pairwise_append.mpr ⟨h.apart, pairwise_singleton _ _, ?_⟩
    refine fun a ha => forall_mem_singleton.mpr fun heq => ?_
    rw [heq]
    exact hnew a ha heq
  increasing := pairwise_append.mpr ⟨h.increasing, pairwise_singleton _ _,
    fun a ha => forall_mem_singleton.mpr (hlast a ha)⟩
  stops := by
    intro a ha hc b hb
    rw [← Bool.not_eq_true]
    intro hstop
    rcases mem_append.mp ha with hold | hnew <;>
      rcases mem_append.mp hb with hold' | hnew'
    · exact Bool.false_ne_true ((h.stops a hold hc b hold').symm.trans hstop)
    · rw [mem_singleton.mp hnew'] at hstop
      exact Bool.false_ne_true
        ((hkept a hold).symm.trans (cancels_eq_true.mpr (.inr ⟨hstop, hc⟩)))
    · rw [mem_singleton.mp hnew] at hc
      exact Bool.false_ne_true
        ((hkept b hold').symm.trans (cancels_eq_true.mpr (.inl ⟨.inl hc, hstop⟩)))
    · rw [mem_singleton.mp hnew] at hc
      rw [mem_singleton.mp hnew'] at hstop
      exact (isStopSignal_ne hstop).1 hc
  asynchronous := forall_mem_append.mpr
    ⟨h.asynchronous, forall_mem_singleton.mpr hasync⟩

def Justified (info : SignalInfo) : Why → Prop
  | .ignored action => action.handler = sigIgn
  | .coalesced pending => pending.signal = info.signal ∧ info.signal < sigrtmin
  | .cancelled cause =>
    (cause.signal = sigcont ∨ cause.signal = sigkill) ∧ isStopSignal info.signal = true ∨
      isStopSignal cause.signal = true ∧ info.signal = sigcont

/-- The queue of a manager, and where every signal raised for it went. -/
structure LedgerOk (pending raised taken : List SignalInfo) (dropped : List (SignalInfo × Why)) :
    Prop where
  queue : QueueOk pending
  fifo : taken.Pairwise Ordered
  later : ∀ a ∈ taken, ∀ b ∈ pending, Ordered a b
  serials : raised.map (·.serial) = List.range raised.length
  ledger : (pending ++ taken ++ dropped.map (·.1)).Perm raised
  justified : ∀ d ∈ dropped, Justified d.1 d.2

section Ledger
variable {pending raised taken : List SignalInfo} {dropped : List (SignalInfo × Why)}

section
variable (h : LedgerOk pending raised taken dropped)
include h

theorem LedgerOk.take (htest : ∀ a b : SignalInfo, a.signal = b.signal → a.synchronous = false →
      b.synchronous = false → test a = test b) (hfind : pending.find? test = some info) :
    LedgerOk (pending.eraseP test) raised (taken ++ [info]) dropped := by
  obtain ⟨hinfo, before, after, rfl, hbefore⟩ := find?_eq_some_iff_append.mp hfind
  have herase : (before ++ info :: after).eraseP test = before ++ after := by
    rw [eraseP_append_right _ (by simpa using hbefore), eraseP_cons_of_pos hinfo]
  have hsub : (before ++ after).Sublist (before ++ info :: after) :=
    (List.Sublist.refl before).append (sublist_cons_self info after)
  have hmem : info ∈ before ++ info :: after := by simp
  rw [herase]
  refine ⟨h.queue.sublist hsub, ?_, ?_, h.serials, ?_, h.justified⟩
  · exact pairwise_append.mpr ⟨h.fifo, pairwise_singleton _ _,
      fun a ha => forall_mem_singleton.mpr (h.later a ha info hmem)⟩
  · intro a ha b hb
    rcases mem_append.mp ha with hold | hnew
    · exact h.later a hold b (hsub.subset hb)
    · intro heq hrt
      rw [mem_singleton.mp hnew] at heq hrt ⊢
      rcases mem_append.mp hb with hb | hb
      · -- the test would have picked an earlier instance
        have hsame := htest info b heq (h.queue.asynchronous info hmem hrt)
          (h.queue.asynchronous b (by simp [hb]) (heq ▸ hrt))
        rw [hinfo] at hsame
        simpa [← hsame] using hbefore b hb
      · have hpair := (pairwise_append.mp h.queue.increasing).2.1
        exact (pairwise_cons.mp hpair).1 b hb
  · refine List.Perm.trans ?_ h.ledger
    rw [perm_iff_count]
    intro x
    simp only [count_append, count_cons, count_nil]
    omega

theorem LedgerOk.drop (test : SignalInfo → Bool)
    (why : Why) (hwhy : ∀ a ∈ pending, test a = true → Justified a why) :
    LedgerOk (pending.filter (!test ·)) raised taken
      (dropped ++ (pending.filter test).map (·, why)) where
  queue := h.queue.sublist filter_sublist
  fifo := h.fifo
  later a ha b hb := h.later a ha b (mem_of_mem_filter hb)
  serials := h.serials
  ledger := by
    refine List.Perm.trans ?_ h.ledger
    have hsplit := (filter_append_perm test pending).count_eq
    rw [perm_iff_count]
    intro x
    have := hsplit x
    simp only [count_append, map_append, map_map, Function.comp_def,
      map_id'] at this ⊢
    omega
  justified := by
    intro d hd
    rcases mem_append.mp hd with hold | hnew
    · exact h.justified d hold
    · obtain ⟨a, ha, rfl⟩ := mem_map.mp hnew
      exact hwhy a (mem_of_mem_filter ha) (mem_filter.mp ha).2

theorem LedgerOk.serials_append (hserial : info.serial = raised.length) :
    (raised ++ [info]).map (·.serial) = List.range (raised ++ [info]).length := by
  rw [map_append, h.serials, length_append, length_singleton, range_succ,
    map_singleton, hserial]

theorem LedgerOk.serial_lt {a : SignalInfo}
    (ha : a ∈ pending ++ taken) : a.serial < raised.length := by
  have hraised : a ∈ raised := h.ledger.subset (mem_append_left _ ha)
  have hserial := mem_map_of_mem (f := (·.serial)) hraised
  rw [h.serials] at hserial
  exact mem_range.mp hserial

theorem LedgerOk.append (hserial : info.serial = raised.length)
    (hnew : ∀ a ∈ pending, a.signal = info.signal → sigrtmin ≤ info.signal)
    (hkept : ∀ a ∈ pending, cancels info a = false)
    (hasync : sigrtmin ≤ info.signal → info.synchronous = false) :
    LedgerOk (pending ++ [info]) (raised ++ [info]) taken dropped := by
  have hlast : ∀ a ∈ pending ++ taken, a.serial < info.serial := by
    intro a ha
    rw [hserial]
    exact h.serial_lt ha
  refine ⟨?_, h.fifo, ?_, h.serials_append hserial, ?_, h.justified⟩
  · exact h.queue.append hnew (fun a ha => hlast a (mem_append_left _ ha)) hkept hasync
  · intro a ha
    have hnewer := hlast a (mem_append_right _ ha)
    exact forall_mem_append.mpr
      ⟨h.later a ha, forall_mem_singleton.mpr fun _ _ => hnewer⟩
  · rw [perm_iff_count]
    intro x
    have := h.ledger.count_eq x
    simp only [count_append] at this ⊢
    omega

theorem LedgerOk.refuse {why : Why}
    (hserial : info.serial = raised.length) (hwhy : Justified info why) :
    LedgerOk pending (raised ++ [info]) taken (dropped ++ [(info, why)]) := by
  refine ⟨h.queue, h.fifo, h.later, h.serials_append hserial, ?_, ?_⟩
  · rw [map_append, ← append_assoc]
    exact h.ledger.append_right _
  · exact forall_mem_append.mpr ⟨h.justified, forall_mem_singleton.mpr hwhy⟩

end

end Ledger

structure Inv (s : State) : Prop where
  hint : s.manager.pending ≠ [] ∨ s.manager.suspendRestoreMask.isSome = true →
    s.manager.pendingWork = true
  mask : s.manager.mask &&& unblockableMask = 0
  saved : ∀ m ∈ s.manager.suspendRestoreMask, m &&& unblockableMask = 0
  ledger : LedgerOk s.manager.pending s.raised s.taken s.dropped

variable {s : State}

theorem and_unblockableMask (mask : Mask) : mask &&& ~~~unblockableMask &&& unblockableMask = 0 := by
  rw [BitVec.and_assoc, BitVec.and_comm (~~~unblockableMask)]
  exact BitVec.and_zero

theorem inv_new : Inv (.new .new) where
  hint h := by simp [State.new, SignalManager.new] at h
  mask := by decide
  saved m hm := by cases hm
  ledger := by
    refine ⟨⟨.nil, .nil, nofun, nofun⟩, .nil, nofun, rfl, .nil, nofun⟩

section
variable (h : Inv s)
include h

theorem Inv.forkFrom : Inv (.new s.manager.forkFrom) where
  hint h := by simp [State.new, SignalManager.new, SignalManager.forkFrom] at h
  mask := h.mask
  saved m hm := by cases hm
  ledger := inv_new.ledger

theorem Inv.hint_of_sublist {pending : List SignalInfo} (hs : pending.Sublist s.manager.pending)
    (hp : pending ≠ [] ∨ s.manager.suspendRestoreMask.isSome = true) :
    s.manager.pendingWork = true := by
  refine h.hint (hp.imp_left ?_)
  intro hne hnil
  rw [hnil] at hs
  exact hne (eq_nil_of_sublist_nil hs)

theorem Inv.setMask (mask : Mask) :
    Inv { s with manager := { s.manager with mask := mask &&& ~~~unblockableMask } } :=
  { h with mask := and_unblockableMask mask }

theorem Inv.beginSuspend (mask : Mask) :
    Inv { s with manager := s.manager.beginSuspend mask } where
  hint _ := rfl
  mask := and_unblockableMask mask
  saved m hm := by
    obtain rfl : _ = m := Option.some.inj hm
    cases hsaved : s.manager.suspendRestoreMask with
    | none => exact h.mask
    | some m => exact h.saved m hsaved
  ledger := h.ledger

theorem Inv.takeSuspendRestoreMask :
    Inv { s with manager := s.manager.takeSuspendRestoreMask.2 } where
  hint hp := by
    have hne : s.manager.pending ≠ [] := by simpa [SignalManager.takeSuspendRestoreMask] using hp
    simp [SignalManager.takeSuspendRestoreMask, h.hint (.inl hne), hne]
  mask := h.mask
  saved m hm := by cases hm
  ledger := h.ledger

theorem Inv.resetForExec : Inv { s with manager := s.manager.resetForExec } where
  hint hp := by
    have hne : s.manager.pending ≠ [] := by simpa [SignalManager.resetForExec] using hp
    exact h.hint (.inl hne)
  mask := h.mask
  saved m hm := by cases hm
  ledger := h.ledger

theorem Inv.take (htest : ∀ a b : SignalInfo, a.signal = b.signal → a.synchronous = false →
      b.synchronous = false → test a = test b) :
    Inv { s with
      manager := (s.manager.take test).2
      taken := s.taken ++ (s.manager.take test).1.toList } := by
  unfold SignalManager.take
  split
  · simpa using h
  · next info hfind =>
    exact ⟨h.hint_of_sublist eraseP_sublist, h.mask, h.saved, h.ledger.take htest hfind⟩

end

theorem matching_congr (mask : Mask) (a b : SignalInfo) (h : a.signal = b.signal)
    (_ : a.synchronous = false) (_ : b.synchronous = false) : matching mask a = matching mask b := by
  unfold matching
  rw [h]

theorem Inv.takeMatchingWith (h : Inv s) (mask : Mask) (deliver : SignalInfo → Bool) :
    Inv (s.takeMatchingWith mask deliver) := by
  have htake := h.take (matching_congr mask)
  unfold State.takeMatchingWith SignalManager.takeMatchingWith
  cases hfind : s.manager.pending.find? (matching mask) with
  | none => simpa using h
  | some info =>
    by_cases hd : deliver info = true
    · simpa only [SignalManager.take, hfind, hd, if_true] using htake
    · simpa [hd] using h

theorem Inv.prepareSignalWait (h : Inv s) (waited : Mask) : Inv (s.prepareSignalWait waited) := by
  have htake := h.take (matching_congr waited)
  unfold State.prepareSignalWait SignalManager.prepareSignalWait
  cases hfind : s.manager.pending.find? (matching waited) with
  | none =>
    simp only [SignalManager.take, hfind]
    split_ifs
    · simpa using h
    · simpa using ({ h with } :
        Inv { s with manager := { s.manager with event := false } })
  | some info => simpa only [SignalManager.take, hfind, Option.toList_some] using htake

theorem Inv.setAction (h : Inv s) (signal : ℕ) (action : SignalAction) :
    Inv (s.setAction signal action) := by
  unfold State.setAction SignalManager.setAction
  split_ifs with hign
  · refine ⟨h.hint_of_sublist filter_sublist, h.mask, h.saved, ?_⟩
    have hdrop := h.ledger.drop (·.signal = signal) (.ignored action) (fun a _ _ => hign)
    simpa using hdrop
  · simpa using ({ h with } :
      Inv { s with manager := { s.manager with
        actions := Function.update s.manager.actions signal action } })

/-- What `enqueue` does, once it has cancelled: it appends the signal or says why not. -/
theorem enqueue_cases (m : SignalManager) (info : SignalInfo) :
    (∃ why, State.refused m info = [(info, why)] ∧ Justified info why ∧
      (m.enqueue info).2.pending = m.pending.filter (!cancels info ·) ∧
      (m.enqueue info).2.pendingWork = m.pendingWork) ∨
    State.refused m info = [] ∧
      (∀ a ∈ m.pending.filter (!cancels info ·), a.signal = info.signal → sigrtmin ≤ info.signal) ∧
      (m.enqueue info).2.pending = m.pending.filter (!cancels info ·) ++ [info] ∧
      (m.enqueue info).2.pendingWork = true := by
  unfold State.refused SignalManager.enqueue
  by_cases hign : m.ignores info = true
  · have haction : (m.actions info.signal).handler = sigIgn := by
      simp only [ignores, Bool.and_eq_true, decide_eq_true_eq] at hign
      exact hign.1.1
    exact .inl ⟨_, if_pos hign, haction, by simp [hign]⟩
  cases hdup : m.duplicate info with
  | some p =>
    refine .inl ⟨.coalesced p, by simp [hign], ?_, by simp⟩
    unfold duplicate at hdup
    split_ifs at hdup with hlt
    exact ⟨by simpa using find?_some hdup, hlt⟩
  | none =>
    refine .inr ⟨by simp [hign], ?_, by simp [hign]⟩
    intro a ha heq
    unfold duplicate at hdup
    split_ifs at hdup with hlt
    · exact absurd heq (by simpa using find?_eq_none.mp hdup a ha)
    · omega

theorem Inv.enqueue (h : Inv s) (hraised : Raised info) : Inv (s.enqueue info) := by
  have hasync := hraised.asynchronous
  generalize hnew : ({ info with serial := s.raised.length } : SignalInfo) = new
  have hserial : new.serial = s.raised.length := by rw [← hnew]
  have hdrop := h.ledger.drop (cancels new) (.cancelled new)
    (fun a _ ha => cancels_eq_true.mp ha)
  have hmasks : (s.manager.enqueue new).2.mask = s.manager.mask ∧
      (s.manager.enqueue new).2.suspendRestoreMask = s.manager.suspendRestoreMask := by
    unfold SignalManager.enqueue
    split <;> exact ⟨rfl, rfl⟩
  have hmask : (s.manager.enqueue new).2.mask &&& unblockableMask = 0 := hmasks.1 ▸ h.mask
  have hsaved : ∀ m ∈ (s.manager.enqueue new).2.suspendRestoreMask, m &&& unblockableMask = 0 :=
    hmasks.2 ▸ h.saved
  unfold State.enqueue
  rw [hnew]
  obtain ⟨why, hrefused, hwhy, hpending, hwork⟩ | ⟨hrefused, hfresh, hpending, hwork⟩ :=
    enqueue_cases s.manager new
  · refine ⟨?_, hmask, hsaved, ?_⟩
    · simp only [hpending, hmasks.2, hwork]
      exact h.hint_of_sublist filter_sublist
    · simp only [hpending, hrefused]
      exact hdrop.refuse hserial hwhy
  · refine ⟨fun _ => hwork, hmask, hsaved, ?_⟩
    simp only [hpending, hrefused, append_nil]
    refine hdrop.append hserial hfresh ?_ ?_
    · intro a ha
      simpa using (mem_filter.mp ha).2
    · rw [← hnew]
      exact hasync

theorem Inv.step {s' : State} (h : Inv s) (hstep : Step s s') : Inv s' := by
  cases hstep with
  | enqueue hraised => exact h.enqueue hraised
  | setAction signal action => exact h.setAction signal action
  | updateMask how mask =>
    unfold updateMask
    split
    · exact h
    · exact h.setMask _
  | restoreMask mask => exact h.setMask mask
  | replaceAltStack stack | markStopped thread sequence => exact { h with }
  | beginSuspend mask => exact h.beginSuspend mask
  | takeSuspendRestoreMask => exact h.takeSuspendRestoreMask
  | prepareInterruptWait =>
    unfold prepareInterruptWait
    split_ifs <;> exact { h with }
  | prepareSignalWait waited => exact h.prepareSignalWait waited
  | takeDeliverable => exact h.take fun a b hs ha hb => by rw [deliverable, hs, ha, ← hb]; rfl
  | takeMatchingWith mask deliver => exact h.takeMatchingWith mask deliver
  | prepareMatchingWait mask =>
    unfold prepareMatchingWait
    split_ifs <;> exact { h with }
  | resetForExec => exact h.resetForExec
  | forkFrom => exact h.forkFrom

theorem inv_of_reachable (h : machine.Reachable s) : Inv s := by
  refine h.invariant ?_ fun s s' hs hstep => hs.step hstep
  intro s hs
  obtain rfl : s = _ := hs
  exact inv_new

theorem QueueOk.countP_le_one (h : QueueOk queue) (hlt : signal < sigrtmin) :
    queue.countP (·.signal = signal) ≤ 1 := by
  rw [countP_eq_length_filter]
  have hapart := h.apart.sublist (filter_sublist (p := (·.signal = signal)))
  have hsignal : ∀ a ∈ queue.filter (·.signal = signal), a.signal = signal := by
    intro a ha
    simpa using (mem_filter.mp ha).2
  match hl : queue.filter (·.signal = signal) with
  | [] | [_] =>
    rw [hl]
    simp
  | a :: b :: rest =>
    rw [hl] at hapart hsignal
    have ha := hsignal a (by simp)
    have hb := hsignal b (by simp)
    have hrt := (pairwise_cons.mp hapart).1 b (by simp) (ha.trans hb.symm)
    omega

theorem and_signalBit {mask : Mask} (h : mask &&& unblockableMask = 0)
    (hs : signal = sigkill ∨ signal = sigstop) : mask &&& signalBit signal = 0 := by
  have hbit : signalBit signal = unblockableMask &&& signalBit signal := by
    rcases hs with rfl | rfl <;> decide
  rw [hbit, ← BitVec.and_assoc, h]
  exact BitVec.zero_and

structure Correct (s : State) : Prop where
  /-- The flag that leads to delivery is up whenever there is something to do. -/
  hint : (∃ info ∈ s.manager.pending, deliverable s.manager.mask info = true) ∨
    s.manager.suspendRestoreMask.isSome = true → s.manager.pendingWork = true
  /-- The two signals that cannot be blocked are in no mask. -/
  unblockable : ∀ signal, signal = sigkill ∨ signal = sigstop →
    s.manager.mask &&& signalBit signal = 0 ∧
      ∀ m ∈ s.manager.suspendRestoreMask, m &&& signalBit signal = 0
  standard : ∀ signal < sigrtmin, s.manager.pending.countP (·.signal = signal) ≤ 1
  stops : ∀ a ∈ s.manager.pending, a.signal = sigcont →
    ∀ b ∈ s.manager.pending, isStopSignal b.signal = false
  /-- Instances of a real-time signal are taken in the order in which they were raised. -/
  fifo : (s.taken ++ s.manager.pending).Pairwise Ordered
  /-- A signal that was raised is pending, was taken, or was dropped, just one of these and once. -/
  once : ∀ info ∈ s.raised, s.manager.pending.count info + s.taken.count info +
    (s.dropped.map (·.1)).count info = 1
  /-- The order of the serial numbers is the order of the calls. -/
  serials : s.raised.map (·.serial) = List.range s.raised.length
  justified : ∀ d ∈ s.dropped, Justified d.1 d.2

theorem LedgerOk.nodup {pending raised taken : List SignalInfo}
    {dropped : List (SignalInfo × Why)} (h : LedgerOk pending raised taken dropped) :
    raised.Nodup := by
  refine List.Nodup.of_map (·.serial) ?_
  rw [h.serials]
  exact nodup_range

theorem signal_state (h : machine.Reachable s) : Correct s := by
  have hinv := inv_of_reachable h
  have hqueue := hinv.ledger.queue
  refine ⟨?_, ?_, fun signal => hqueue.countP_le_one, hqueue.stops, ?_, ?_, hinv.ledger.serials,
    hinv.ledger.justified⟩
  · refine fun hd => hinv.hint (hd.imp_left ?_)
    rintro ⟨info, hmem, -⟩
    exact ne_nil_of_mem hmem
  · intro signal hs
    exact ⟨and_signalBit hinv.mask hs, fun m hm => and_signalBit (hinv.saved m hm) hs⟩
  · refine pairwise_append.mpr ⟨hinv.ledger.fifo, ?_, hinv.ledger.later⟩
    exact hqueue.increasing.imp fun hlt _ _ => hlt
  · intro info hinfo
    have hcount := hinv.ledger.ledger.count_eq info
    rw [count_eq_one_of_mem hinv.ledger.nodup hinfo] at hcount
    simpa only [count_append] using hcount

theorem signal_state_example :
    ∃ s, machine.Reachable s ∧ s.taken.length = 1 ∧ s.manager.pending.length = 2 ∧ Correct s := by
  let s₀ : State := .new .new
  let s₁ := s₀.enqueue ⟨40, 0, 7, 0, false, 0⟩
  let s₂ := s₁.enqueue ⟨40, 0, 7, 0, false, 0⟩
  let s₃ := s₂.enqueue ⟨x86Signal 14, 128, 0, 0, true, 0⟩
  let s₄ := s₃.takeMatchingWith (signalBit 40) fun _ => false
  let s₅ := s₄.takeDeliverable
  have h : machine.Reachable s₀ := .init rfl
  have h : machine.Reachable s₁ := h.step (.enqueue (.kill 7 0 (by decide)))
  have h : machine.Reachable s₂ := h.step (.enqueue (.kill 7 0 (by decide)))
  have h : machine.Reachable s₃ := h.step (.enqueue (.sendCurrentX86 14 0))
  have h : machine.Reachable s₄ := h.step (.takeMatchingWith (signalBit 40) _)
  have h : machine.Reachable s₅ := h.step .takeDeliverable
  exact ⟨s₅, h, by decide, by decide, signal_state h⟩

end Roanix.Proc.Signal
