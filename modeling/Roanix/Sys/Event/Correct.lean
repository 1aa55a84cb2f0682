import Roanix.Sys.Event.Steps

/-! No wake-up is lost, over every interleaving whose steps are permitted. -/
namespace Roanix.Sys.EventM
open Lib

variable {ε ι : Type} {generation generation' : ε → ℕ} {l l' : Local ε ι}

section
variable {waker : ι → Option ι} {s : State ε ι}

theorem inv_new : Inv (fun _ => none) (.new : State ε ι) where
  party := by
    constructor
    · intro t
      exact ⟨fun h => h.elim, trivial, fun h => absurd rfl h⟩
    · intro u t
      simp [State.new, Local.new, Local.owes]
    · intro u
      exact List.nodup_nil
    · intro t
      simp [State.new, Local.new, Local.Owed]
    · intro u w seq batch hu
      cases hu
  event := by
    intro e
    refine ⟨?_, ⟨?_, ?_, ?_, ?_, ?_, ?_, ?_⟩, ?_, ?_⟩
    · intro t
      simp [State.new, Event.new, Local.new, Local.section?]
    · exact List.nodup_nil
    · intro t i hmem
      cases hmem
    · exact fun t i hu => hu.1.elim
    · intro t hu
      cases hu
    · constructor
      · intro hne
        exact absurd rfl hne
      · rintro ⟨u, hu⟩
        exact hu.elim
    · intro hne
      exact absurd rfl hne
    · intro hq
      cases hq
    · intro hs
      cases hs
    · exact fun t ho => ho.1.elim

def Dated (generation : ε → ℕ) (l : Local ε ι) : Prop :=
  (∀ e, l.tickets e ≤ generation e) ∧
    ∀ e n, l.events = [e] → l.ticket = some n → n ≤ generation e

structure TicketOk (s : State ε ι) : Prop where
  bound : ∀ e, (s.event e).generation < 2 ^ 64
  dated : ∀ t, Dated (fun e => (s.event e).generation) (s.party t)

theorem Dated.mono (h : Dated generation l) (hle : ∀ e, generation e ≤ generation' e) :
    Dated generation' l :=
  ⟨fun e => (h.1 e).trans (hle e), fun e n he hn => (h.2 e n he hn).trans (hle e)⟩

theorem Dated.congr (h : Dated generation l) (ht : l'.tickets = l.tickets)
    (he : l'.events = l.events) (hn : l'.ticket = l.ticket) : Dated generation l' := by
  constructor
  · rw [ht]
    exact h.1
  · rw [he, hn]
    exact h.2

theorem Place.Trying.claims {p : Place ε ι} {e : ε} (h : p.Trying e) : p.Claims e := by
  cases p <;> simp_all [Place.Trying, Place.Claims]

theorem Place.ClaimsAll.claims {p : Place ε ι} {e : ε} (h : p.ClaimsAll e) : p.Claims e := by
  cases p <;> simp_all [Place.ClaimsAll, Place.Claims]

structure Correct (s : State ε ι) : Prop where
  claims : ∀ t, (s.party t).place.Live → (s.party t).claims ≤ 1 ∧
    ((s.party t).claims = 1 ↔ (s.party t).winner ≠ none) ∧ (s.party t).wakes ≤ (s.party t).claims
  /-- Whoever has claimed a group owes it one wake, until that is done. -/
  promised : ∀ t, (s.party t).place.Live → (s.party t).winner ≠ none → (s.party t).wakes = 0 →
    ∃! u, t ∈ (s.party u).owes u
  owed : ∀ u, ((s.party u).owes u).Nodup ∧ ∀ t ∈ (s.party u).owes u,
    (s.party t).place.Live ∧ (s.party t).winner ≠ none ∧ (s.party t).wakes = 0
  carried : ∀ u w seq batch, (s.party u).place = .wake w seq batch → seq = (s.party w).seq
  /-- Nobody registered at a signaled event is left unclaimed. -/
  reached : ∀ e, (s.event e).signaled = true → (∀ u, ¬ (s.party u).place.Claims e) →
    ∀ t i, (s.party t).place.Live → i < (s.party t).index →
      (s.party t).events[i]? = some e → (s.party t).winner ≠ none
  queued : ∀ e, (s.event e).lock = none →
    ((s.event e).queued = true ↔ (s.event e).queue ≠ [])
  /-- A wait that returns was claimed and woken, and nobody refers to it any more. -/
  returned : ∀ t, (s.party t).place = .finish → (s.party t).claims = 1 ∧ (s.party t).wakes = 1
  unlinked : ∀ t, (s.party t).place = .finish ∨ ¬ (s.party t).place.Live →
    (∀ e i, (t, i) ∉ (s.event e).queue ∧ (s.event e).taken ≠ some (t, i)) ∧
      ∀ u, t ∉ (s.party u).owes u
  /-- Nobody sleeps on a ticket older than a notification. -/
  notified : ∀ t e n, (s.party t).place.Checked → (s.party t).events = [e] →
    (s.party t).ticket = some n → n < (s.event e).generation →
    (∀ u, ¬ (s.party u).place.Notifies e) → (s.party t).winner ≠ none
  sound : ∀ t, ¬ Fails t s

theorem not_fails (h : Inv waker s) (t : ι) : ¬ Fails t s := by
  have hok := h.party.each t
  have hplace := hok.place
  unfold Local.PlaceOk at hplace
  intro hfail
  cases hfail with
  | @staleWaiter w seq batch hp hs =>
    have hmem : w ∈ (s.party t).owes t := by simp [Local.owes, hp]
    have howed := (h.party.owed w).mp (by simp [(h.party.owes t w).mp hmem])
    have hgroup := (h.party.each w).group howed.1
    obtain hidle | hseq := hs
    · exact hgroup.park.mp howed.2.2 hidle
    · rw [h.party.target t w seq batch hp] at hseq
      exact hseq hgroup.seq
  | staleSelf hp hs =>
    have hlive : (s.party t).place.Live := by
      obtain hp | hp := hp <;> rw [hp] <;> trivial
    have hwakes : (s.party t).wakes = 0 := by
      obtain hp | hp := hp <;> rw [hp] at hplace <;> exact hplace.2.1
    obtain hidle | hseq := hs
    · exact (hok.group hlive).park.mp hwakes hidle
    · exact hseq (hok.group hlive).seq
  | @lostRegistration e hp he hq => exact hq ((h.event e).queue.undo t hp he)
  | unclaimed hp hw =>
    exact (hok.leaving (.inl hp)).2.2 hw
  | @invalidWinner e i hp he hw hi =>
    have hlt := (hok.group (by rw [hp]; trivial)).valid i hw
    rw [he] at hlt
    simp at hlt
    exact hi hlt

theorem correct_of_inv (h : Inv waker s) (ht : TicketOk s) : Correct s where
  claims := by
    intro t hlive
    have hgroup := (h.party.each t).group hlive
    refine ⟨?_, ?_, hgroup.wakes⟩ <;> rw [hgroup.claims] <;> split_ifs with hw <;> simp [hw]
  promised := by
    intro t hlive hw hwakes
    obtain ⟨u, hu⟩ := Option.ne_none_iff_exists'.mp ((h.party.owed t).mpr ⟨hlive, hw, hwakes⟩)
    refine ⟨u, (h.party.owes u t).mpr hu, fun v hv => ?_⟩
    have := (h.party.owes v t).mp hv
    rw [hu] at this
    exact (Option.some.inj this).symm
  owed u := ⟨h.party.once u, fun t hmem =>
    (h.party.owed t).mp (by simp [(h.party.owes u t).mp hmem])⟩
  carried := h.party.target
  reached := by
    intro e hs hno t i hlive hi he hw
    have hmem := (h.event e).queue.pending t i ⟨hlive, hw, hi, he⟩
    obtain htaken | hqueue := List.mem_append.mp hmem
    · have hne : (s.event e).taken ≠ none := by
        intro hn
        rw [hn] at htaken
        cases htaken
      obtain ⟨u, hu⟩ := (h.event e).queue.taken.mp hne
      exact hno u hu.claims
    · obtain ⟨u, hu⟩ := (h.event e).signaled hs t i hqueue hi
      exact hno u hu.claims
  queued := by
    intro e hl
    have hnone := (h.event e).taken_eq_none_of_unlocked hl
    constructor
    · intro hq hnil
      obtain ⟨u, hu⟩ := (h.event e).queue.empty hq hnil
      have := ((h.event e).latch u).mpr (section_of_claiming hu)
      rw [hl] at this
      cases this
    · intro hne
      apply (h.event e).queue.queued
      simpa [Event.waiters, hnone] using hne
  returned := by
    intro t hp
    obtain ⟨hlive, hwakes, hwinner⟩ := (h.party.each t).leaving (.inl hp)
    rw [((h.party.each t).group hlive).claims, if_neg hwinner]
    exact ⟨rfl, hwakes⟩
  unlinked := by
    intro t hp
    have hnot : ∀ e i, ¬ (s.party t).Linked e i := by
      rintro e i ⟨hlive, -, -, hk⟩
      obtain hp | hp := hp
      · rw [hp] at hk
        exact hk
      · exact hp hlive
    constructor
    · intro e i
      have hout : (t, i) ∉ (s.event e).waiters := fun hmem =>
        hnot e i ((h.event e).queue.linked t i hmem)
      constructor
      · exact fun hmem => hout (List.mem_append_right _ hmem)
      · intro htaken
        simp [Event.waiters, htaken] at hout
    · intro u hmem
      obtain ⟨hlive, -, hwakes⟩ := (h.party.owed t).mp (by simp [(h.party.owes u t).mp hmem])
      obtain hp | hp := hp
      · cases hwakes.symm.trans ((h.party.each t).leaving (.inl hp)).2.1
      · exact hp hlive
  notified := by
    intro t e n hc he hn hlt hno hw
    have hne : wrap (s.event e).generation ≠ wrap n := by
      have hbound := ht.bound e
      unfold wrap
      rw [Nat.mod_eq_of_lt hbound, Nat.mod_eq_of_lt (hlt.trans hbound)]
      exact hlt.ne'
    obtain ⟨u, hu⟩ := (h.event e).notified t ⟨hc, hw, he, n, hn, hne⟩
    exact hno u hu
  sound := not_fails h

end

variable [DecidableEq ε] [DecidableEq ι] {s s' : State ε ι} {t : ι}

def permitted (ε ι : Type) [DecidableEq ε] [DecidableEq ι] : Machine (State ε ι) where
  init s := s = .new
  step s s' := (∃ t, Step t s s' ∧ Permitted t s) ∨ ∃ held, s' = { s with heapHeld := held }

section Tickets
variable {c : Event ι} {e : ε}

omit [DecidableEq ι] in
theorem Dated.goes (h : Dated (fun e => (s.event e).generation) l) (hg : Goes s l l') :
    Dated (fun e => (s.event e).generation) l' := by
  cases hg with
  | observe e _ =>
    refine ⟨fun f => ?_, h.2⟩
    by_cases hf : f = e
    · subst hf
      simp
    · simpa [hf] using h.1 f
  | wakeOne e _ => split_ifs <;> exact h
  | wait e _ | waitAny events _ _ => exact ⟨h.1, fun _ _ _ hn => (by cases hn)⟩
  | waitTicket e _ =>
    refine ⟨h.1, fun f n he hn => ?_⟩
    obtain rfl : e = f := List.head_eq_of_cons_eq he
    obtain rfl := Option.some.inj hn
    exact h.1 e
  | _ => exact h.congr rfl rfl rfl

omit [DecidableEq ε] in
theorem Dated.acts (h : Dated generation l) {c c' : Event ι} (ha : Acts t e c l c' l') :
    Dated generation l' ∧ c.generation ≤ c'.generation ∧ c'.generation ≤ c.generation + 1 := by
  cases ha with
  | signal _ => exact ⟨by split_ifs <;> exact h, by simp⟩
  | reset _ => exact ⟨h, by simp⟩
  | _ => exact ⟨h.congr rfl rfl rfl, by simp [Event.unlink]⟩

omit [DecidableEq ε] in
theorem TicketOk.put (h : TicketOk s) (hl : Dated (fun e => (s.event e).generation) l) :
    TicketOk (s.put t l) := by
  exact ⟨h.bound, update_all (Dated _) hl h.dated⟩

omit [DecidableEq ι] in
theorem TicketOk.set (h : TicketOk s) (hle : (s.event e).generation ≤ c.generation)
    (hlt : c.generation < 2 ^ 64) : TicketOk (s.set e c) := by
  refine ⟨fun f => ?_, fun u => (h.dated u).mono fun f => ?_⟩
  · by_cases hf : f = e
    · subst hf
      simpa [State.set] using hlt
    · simpa [State.set, hf] using h.bound f
  · by_cases hf : f = e
    · subst hf
      simpa [State.set] using hle
    · simp [State.set, hf]

theorem TicketOk.claims {w : ι} {i : ℕ} {place : Place ε ι} (h : TicketOk s)
    (hc : c.generation = (s.event e).generation) :
    TicketOk (((s.set e c).put w ((s.party w).claimed i)).put t ((s.party t).goto place)) := by
  have hset : TicketOk (s.set e c) := h.set hc.ge (hc ▸ h.bound e)
  have hput := hset.put (t := w) (l := (s.party w).claimed i) ((hset.dated w).congr rfl rfl rfl)
  exact hput.put ((hset.dated t).congr rfl rfl rfl)

theorem TicketOk.step (h : TicketOk s) (hstep : Step t s s') (hperm : Permitted t s) :
    TicketOk s' := by
  cases hstep with
  | own hg => exact h.put ((h.dated t).goes hg)
  | @act e c l ha =>
    obtain ⟨hl, hle, hlt⟩ := (h.dated t).acts ha
    have hset : TicketOk (s.set e c) := h.set hle (Nat.lt_of_le_of_lt hlt (hperm.2 e))
    refine hset.put (hl.mono fun f => ?_)
    by_cases hf : f = e
    · subst hf
      simpa [State.set] using hle
    · simp [State.set, hf]
  | allocateSleeps | claimSelf | wakeSelf | claimZero | wakeZero =>
    exact h.put ((h.dated t).congr rfl rfl rfl)
  | @claimFails e =>
    have hset := h.set (c := { s.event e with taken := none }) le_rfl (h.bound e)
    exact hset.put ((hset.dated t).congr rfl rfl rfl)
  | claimForBatch | claimOne => exact h.claims rfl
  | @wake w =>
    have hput := h.put (t := w) (l := (s.party w).woken) ((h.dated w).congr rfl rfl rfl)
    exact hput.put ((h.dated t).congr rfl rfl rfl)

end Tickets

theorem inv_of_reachable (h : (permitted ε ι).Reachable s) :
    (∃ waker, Inv waker s) ∧ TicketOk s := by
  apply h.invariant
  · rintro s rfl
    refine ⟨⟨_, inv_new⟩, fun e => by simp [State.new, Event.new], fun t => ⟨fun e => le_rfl, ?_⟩⟩
    intro e n he
    cases he
  · rintro s s' ⟨⟨waker, hinv⟩, hticket⟩ (⟨t, hstep, hperm⟩ | ⟨held, rfl⟩)
    · exact ⟨hinv.step hstep hperm, hticket.step hstep hperm⟩
    · exact ⟨⟨waker, hinv.party, hinv.event⟩, hticket.bound, hticket.dated⟩

/-- In every state that permitted steps reach, no wake-up is lost. -/
theorem events_correct (h : (permitted ε ι).Reachable s) : Correct s := by
  obtain ⟨⟨waker, hinv⟩, hticket⟩ := inv_of_reachable h
  exact correct_of_inv hinv hticket

theorem events_correct_example :
    ∃ s : State (Fin 1) (Fin 2), (permitted (Fin 1) (Fin 2)).Reachable s ∧
      (s.party 0).place = .asleep ∧ (s.party 0).winner = some 0 ∧ (s.party 1).owes 1 = [0] ∧
      Correct s := by
  have go {s s' : State (Fin 1) (Fin 2)} (h : (permitted (Fin 1) (Fin 2)).Reachable s) (t : Fin 2)
      (hstep : Step t s s') (hheap : s.heapHeld = false) (hgen : (s.event 0).generation = 0) :
      (permitted (Fin 1) (Fin 2)).Reachable s' := by
    refine h.step (.inl ⟨t, hstep, fun _ _ => hheap, fun e => ?_⟩)
    obtain rfl : e = 0 := Subsingleton.elim e 0
    rw [hgen]
    decide
  have h : (permitted (Fin 1) (Fin 2)).Reachable .new := .init rfl
  have h := go h 0 (.own (.wait 0 rfl)) rfl rfl
  have h := go h 0 (.own (.checkClear rfl rfl rfl)) rfl rfl
  have h := go h 0 (.own (.checkDone rfl (by decide))) rfl rfl
  have h := go h 0 (.own (.prepare rfl)) rfl rfl
  have h := go h 0 (.own (.allocate rfl)) rfl rfl
  have h := go h 0 (.own (.winnerNone rfl (by decide) rfl)) rfl rfl
  have h := go h 0 (.act (.registerLock rfl rfl rfl)) rfl rfl
  have h := go h 0 (.own (.loadClear rfl rfl rfl)) rfl rfl
  have h := go h 0 (.act (.push rfl rfl rfl)) rfl rfl
  have h := go h 0 (.own (.loopDone rfl (by decide))) rfl rfl
  have h := go h 0 (.own (.conditionNone rfl rfl)) rfl rfl
  have h := go h 0 (.own (.decidePark rfl rfl)) rfl rfl
  have h := go h 0 (.own (.parks rfl rfl rfl)) rfl rfl
  have h := go h 1 (.act (e := 0) (.signal rfl)) rfl rfl
  have h := go h 1 (.act (.claimLock rfl rfl)) rfl rfl
  have h := go h 1 (.act (.pop rfl rfl)) rfl rfl
  have h := go h 1 (.claimForBatch rfl rfl rfl) rfl rfl
  exact ⟨_, h, rfl, rfl, rfl, events_correct h⟩

/-- A wait on nine events sleeps on the mutex of the heap after it has prepared to park. The signal
that claims it finds its park sequence stale. -/
theorem wait_any_panics :
    ∃ s : State (Fin 9) (Fin 2), (machine (Fin 9) (Fin 2)).Reachable s ∧ Fails 1 s := by
  have h : (machine (Fin 9) (Fin 2)).Reachable .new := .init rfl
  have h := h.step (.inr ⟨true, rfl⟩)
  have h := h.step (.inl ⟨0, .own (.waitAny (List.finRange 9) rfl (by decide))⟩)
  iterate 9 replace h := h.step (.inl ⟨0, .own (.checkClear rfl rfl rfl)⟩)
  have h := h.step (.inl ⟨0, .own (.checkDone rfl (by decide))⟩)
  have h := h.step (.inl ⟨0, .own (.prepare rfl)⟩)
  have h := h.step (.inl ⟨0, .allocateSleeps rfl (by decide) rfl⟩)
  have h := h.step (.inl ⟨0, .own (.winnerNone rfl (by decide) rfl)⟩)
  have h := h.step (.inl ⟨0, .act (.registerLock rfl rfl rfl)⟩)
  have h := h.step (.inl ⟨0, .own (.loadClear rfl rfl rfl)⟩)
  have h := h.step (.inl ⟨0, .act (.push rfl rfl rfl)⟩)
  have h := h.step (.inl ⟨1, .act (e := 0) (.signal rfl)⟩)
  have h := h.step (.inl ⟨1, .act (.claimLock rfl rfl)⟩)
  have h := h.step (.inl ⟨1, .act (.pop rfl rfl)⟩)
  have h := h.step (.inl ⟨1, .claimForBatch rfl rfl rfl⟩)
  have h := h.step (.inl ⟨1, .act (.claimEnds rfl rfl)⟩)
  have h := h.step (.inl ⟨1, .own (.readGroup rfl)⟩)
  exact ⟨_, h, .staleWaiter rfl (.inl rfl)⟩

end Roanix.Sys.EventM
