import Roanix.Sys.Mutex.Steps

/-! Exclusion, order and boosts of the mutexes, over every interleaving of any number of threads. -/
namespace Roanix.Sys.Mutex
open Lib Function Finset

variable {κ ι : Type} [Fintype κ] [DecidableEq κ] [Fintype ι] [DecidableEq ι] {w w' : World κ ι}
  {holder : κ → Option ι} {k : κ} {s' : State ι} {t : ι}

def lent (s : State ι) (x : ι) : ℕ := count (fun l : Local ι => l.boosted = some x) s.party

def elsewhere (w : World κ ι) (k : κ) (x : ι) : ℕ := ∑ j ∈ Finset.univ.erase k, lent (w.mutex j) x

structure WorldInv (holder : κ → Option ι) (w : World κ ι) : Prop where
  each : ∀ k, Inv (elsewhere w k) (holder k) (w.view k)
  boosts : ∀ x, w.boosts x = ∑ k, lent (w.mutex k) x

theorem Inv.boosts_eq {holder : κ → Option ι} (h : Inv (elsewhere w k) (holder k) (w.view k)) (x : ι) :
    w.boosts x = ∑ j, lent (w.mutex j) x := by
  rw [← sum_erase_add _ _ (mem_univ k)]
  exact h.boost x

theorem Inv.other {holder : Option ι} {j : κ} (h : Inv (elsewhere w j) holder (w.view j))
    (hj : w'.mutex j = w.mutex j) (hsum : ∀ x, w'.boosts x = ∑ i, lent (w'.mutex i) x) :
    Inv (elsewhere w' j) holder (w'.view j) := by
  have hview : w'.view j = { w.view j with boosts := w'.boosts } := by
    unfold World.view
    rw [hj]
  rw [hview]
  refine { h with boost := fun x => ?_ }
  have hx := hsum x
  rw [← sum_erase_add _ _ (mem_univ j), hj] at hx
  exact hx

theorem put_elsewhere (w : World κ ι) (k : κ) (s : State ι) :
    elsewhere (w.put k s) k = elsewhere w k := by
  funext x
  apply sum_congr rfl
  intro j hj
  simp [World.put, ne_of_mem_erase hj]

theorem WorldInv.step (h : WorldInv holder w) (hstep : (machine κ ι).step w w') :
    ∃ holder', WorldInv holder' w' ∧
      ∀ k, Passes (holder k) (holder' k) (w.mutex k).queue (w'.mutex k).queue := by
  obtain ⟨k, t, s', hstep, rfl⟩ := hstep
  obtain ⟨next, hinv, hpass⟩ := (h.each k).step hstep
  refine ⟨update holder k next, ?_, ?_⟩
  · have hself : Inv (elsewhere (w.put k s') k) (update holder k next k)
        ((w.put k s').view k) := by
      rw [put_elsewhere, update_self]
      simpa only [World.put, World.view, update_self] using hinv
    refine ⟨fun j => ?_, hself.boosts_eq⟩
    by_cases hj : j = k
    · subst hj
      exact hself
    · rw [update_of_ne hj]
      exact (h.each j).other (by simp [World.put, hj]) hself.boosts_eq
  · intro j
    by_cases hj : j = k
    · subst hj
      simpa [World.put, World.view] using hpass
    · simpa [World.put, hj] using Passes.keep

theorem inv_of_reachable (h : (machine κ ι).Reachable w) : ∃ holder, WorldInv holder w := by
  apply h.invariant
  · intro w hw
    subst hw
    have hlent : ∀ x : ι, lent (.new : State ι) x = 0 := by
      intro x
      apply count_eq_zero.mpr
      intro t ht
      cases ht
    refine ⟨fun _ => none, fun k => ?_, fun x => (sum_eq_zero fun _ _ => hlent x).symm⟩
    have hzero : elsewhere (⟨fun _ => .new, fun _ => 0⟩ : World κ ι) k = fun _ => 0 := by
      funext x
      exact sum_eq_zero fun _ _ => hlent x
    rw [hzero]
    exact inv_new
  · rintro w w' ⟨holder, hw⟩ hstep
    obtain ⟨holder', hw', -⟩ := hw.step hstep
    exact ⟨holder', hw'⟩

structure Correct (holder : κ → Option ι) (w : World κ ι) : Prop where
  exclusive : ∀ k t, ((w.mutex k).party t).guard = true → holder k = some t
  held : ∀ k, (w.mutex k).locked = true ↔ holder k ≠ none
  idle : ∀ k, (w.mutex k).locked = false → (w.mutex k).queueLock = none → (w.mutex k).queue = []
  /-- Nobody sleeps while the mutex is free. -/
  asleep : ∀ k t, ((w.mutex k).party t).place = .parked → (w.mutex k).locked = true
  /-- A sleeper waits for its turn, or it was given the mutex and is being woken. -/
  queued : ∀ k t, ((w.mutex k).party t).place = .parked →
    t ∈ (w.mutex k).queue ∨ holder k = some t ∧
      (((w.mutex k).party t).woken = true ∨ ∃ u, ((w.mutex k).party u).place = .unlockWake t)
  /-- Each boost is the one that some waiter lends to the holder. -/
  boosts : ∀ x, w.boosts x = ∑ k, lent (w.mutex k) x
  lends : ∀ k t x, ((w.mutex k).party t).boosted = some x →
    t ∈ (w.mutex k).queue ∧ holder k = some x
  unboosted : ∀ x, (∀ k, holder k = some x → (w.mutex k).queue = []) → w.boosts x = 0
  sound : ∀ k t, ¬ Fails t (w.view k)

section
variable {e : ι → ℕ} {holder : Option ι} {s : State ι} (h : Inv e holder s)
include h

theorem not_fails (t : ι) : ¬ Fails t s := by
  intro hfail
  cases hfail with
  | queuedWaiters ht hl hq =>
    have hin : (s.party t).InSection := Local.inSection ht trivial
    exact hq (h.queue_eq_nil hl hin (by simp [ht]))
  | waiterDisappeared ht hq =>
    rw [(h.queue.alone t ht).1] at hq
    exact hq List.mem_cons_self
  | priorWaiters ht hq =>
    rw [(h.queue.alone t ht).1] at hq
    simp at hq
  | staleSelf ht hw =>
    rw [(h.unparked (by simp [ht])).2] at hw
    cases hw
  | lostQueue ht _ hq => exact h.queue.contended t ht hq
  | staleWaiter ht hw =>
    rw [(h.wake.waking t _ ht).2] at hw
    cases hw

theorem Inv.sleeper (ht : (s.party t).place = .parked) :
    (t ∈ s.queue ∧ (s.party t).granted = false ∨ holder = some t ∧ (s.party t).granted = true) ∧
      s.locked = true := by
  cases hg : (s.party t).granted with
  | true =>
    have hholder := h.holder_eq (.inr (.inr ⟨ht, hg⟩))
    exact ⟨.inr ⟨hholder, rfl⟩, h.queue.locked_iff.mpr (by simp [hholder])⟩
  | false =>
    have hmem : t ∈ s.queue := by
      apply (h.queue.listed.mem t).mpr
      refine ⟨?_, hg⟩
      rw [ht]
      trivial
    refine ⟨.inl ⟨hmem, rfl⟩, ?_⟩
    obtain hl | ⟨u, hu⟩ := h.queue.busy (List.ne_nil_of_mem hmem)
    · exact hl
    · rw [(h.queue.alone u hu).1, List.mem_singleton] at hmem
      subst hmem
      rw [ht] at hu
      cases hu

end

theorem unboosted_of_inv (h : WorldInv holder w) {x : ι}
    (hx : ∀ k, holder k = some x → (w.mutex k).queue = []) (k : κ) : lent (w.mutex k) x = 0 := by
  apply count_eq_zero.mpr
  intro t ht
  obtain ⟨hwaits, hholder⟩ := (h.each k).owner.lends t x ht
  have hmem : t ∈ (w.mutex k).queue := ((h.each k).queue.listed.mem t).mpr hwaits
  rw [hx k hholder] at hmem
  cases hmem

theorem correct_of_inv (h : WorldInv holder w) : Correct holder w where
  exclusive k _ ht := (h.each k).holder_eq (.inl ht)
  held k := (h.each k).queue.locked_iff
  idle := by
    intro k hl hq
    by_contra hne
    obtain hlocked | ⟨u, hu⟩ := (h.each k).queue.busy hne
    · cases hl.symm.trans hlocked
    · have hin : ((w.view k).party u).InSection := Local.inSection hu trivial
      cases hq.symm.trans (((h.each k).latch u).mpr hin)
  asleep k _ ht := ((h.each k).sleeper ht).2
  queued := by
    intro k t ht
    obtain ⟨⟨hmem, -⟩ | ⟨hholder, hg⟩, -⟩ := (h.each k).sleeper ht
    · exact .inl hmem
    · refine .inr ⟨hholder, ?_⟩
      cases hw : ((w.mutex k).party t).woken with
      | true => exact .inl rfl
      | false => exact .inr ((h.each k).wake.promised t hg hw)
  boosts := h.boosts
  lends := by
    intro k t x ht
    obtain ⟨hwaits, hholder⟩ := (h.each k).owner.lends t x ht
    exact ⟨((h.each k).queue.listed.mem t).mpr hwaits, hholder⟩
  unboosted := by
    intro x hx
    rw [h.boosts]
    exact sum_eq_zero fun k _ => unboosted_of_inv h hx k
  sound k t := not_fails (h.each k) t

/-- In every reachable state each mutex has at most one holder, its queue is empty while it is free
and its boosts are those its waiters lend; every step passes it on in the order of the queue. -/
theorem mutex_correct (h : (machine κ ι).Reachable w) :
    ∃ holder, Correct holder w ∧ ∀ w', (machine κ ι).step w w' → ∃ holder', Correct holder' w' ∧
      ∀ k, Passes (holder k) (holder' k) (w.mutex k).queue (w'.mutex k).queue := by
  obtain ⟨holder, hinv⟩ := inv_of_reachable h
  refine ⟨holder, correct_of_inv hinv, ?_⟩
  intro w' hstep
  obtain ⟨holder', hinv', hpass⟩ := hinv.step hstep
  exact ⟨holder', correct_of_inv hinv', hpass⟩

theorem mutex_correct_example :
    ∃ w : World (Fin 1) (Fin 2), (machine (Fin 1) (Fin 2)).Reachable w ∧
      ((w.mutex 0).party 1).granted = true ∧ ((w.mutex 0).party 1).woken = false ∧
      ∃ holder, Correct holder w := by
  have h : (machine (Fin 1) (Fin 2)).Reachable _ := .init rfl
  have h := h.step ⟨0, 0, _, .lock false rfl, rfl⟩
  have h := h.step ⟨0, 0, _, .fastTake rfl rfl rfl, rfl⟩
  have h := h.step ⟨0, 0, _, .publish true rfl, rfl⟩
  have h := h.step ⟨0, 1, _, .lock false rfl, rfl⟩
  have h := h.step ⟨0, 1, _, .fastFails rfl (.inl rfl), rfl⟩
  have h := h.step ⟨0, 1, _, .spinEnds rfl, rfl⟩
  have h := h.step ⟨0, 1, _, .queueLock rfl rfl, rfl⟩
  have h := h.step ⟨0, 1, _, .testTaken rfl rfl, rfl⟩
  have h := h.step ⟨0, 1, _, .enqueue rfl, rfl⟩
  have h := h.step ⟨0, 1, _, .lend rfl rfl, rfl⟩
  have h := h.step ⟨0, 1, _, .boost rfl, rfl⟩
  have h := h.step ⟨0, 0, _, .unlock rfl rfl, rfl⟩
  have h := h.step ⟨0, 0, _, .unlockClear rfl, rfl⟩
  have h := h.step ⟨0, 0, _, .unlockContended rfl (.inr rfl), rfl⟩
  have h := h.step ⟨0, 0, _, .handOff rfl rfl rfl, rfl⟩
  obtain ⟨holder, hcorrect, -⟩ := mutex_correct h
  exact ⟨_, h, rfl, rfl, holder, hcorrect⟩

end Roanix.Sys.Mutex
