import Roanix.Sys.Event.Claim

/-! Claiming and waking the waiters of an event, and every step together. -/
namespace Roanix.Sys.EventM
open Lib Function

variable {ε ι : Type} [DecidableEq ε] [DecidableEq ι] {waker : ι → Option ι} {s s' : State ε ι}
  {t w : ι} {e : ε} {i : ℕ} {party : ι → Local ε ι} {c : Event ι} {l : Local ε ι}

attribute [local simp] Local.goto State.put Local.section? Place.Live Local.owes State.set
  Local.claimed Place.Notifies Local.woken Local.Owed
variable {one : Bool} {batch : List ι} {b : Place ε ι}

section
variable (h : EventOk e c party) (batch' : List ι) (htaken : c.taken = some (w, i))
  (hw : (party w).winner ≠ none)
include h batch' htaken hw

omit [DecidableEq ε] in
theorem EventOk.drop (hp : (party t).place = .tryClaim e one batch) :
    EventOk e { c with taken := none }
      (update party t ((party t).goto (.claim e one batch'))) := by
  have hsec : (party t).section? = some e := by simp [hp]
  have hdrop := h.queue.drop (l := (party t).goto (.claim e one batch')) (by simp [hp]) id
    (h.no_undo hsec (by simp [hp])) c.queued htaken hw (h.eq_of_trying hsec) id (fun _ => rfl)
    fun _ _ => rfl
  exact h.moved (h.latch.stay (by simp [hp])) hdrop rfl rfl (List.Subset.refl _) rfl
    (by simp [hp, Place.ClaimsAll]) (by simp [hp]) id

omit [DecidableEq ε] in
theorem EventOk.dropOne (seq : ℕ) (hp : (party t).place = .tryClaim e true batch) :
    EventOk e { c with
        taken := none
        queued := if c.queue = [] then false else c.queued
        lock := none }
      (update party t ((party t).goto (.wake w seq batch'))) := by
  have hsec : (party t).section? = some e := by simp [hp]
  have hdrop := h.queue.drop (l := (party t).goto (.wake w seq batch')) (by simp [hp]) id
    (h.no_undo hsec (by simp [hp])) (if c.queue = [] then false else c.queued) htaken hw
    (h.eq_of_trying hsec) id (fun hne => if_neg hne) fun hq hnil => by simp [hnil] at hq
  exact h.moved (h.latch.leave hsec (by simp)) (hdrop.congr rfl rfl rfl) rfl rfl
    (List.Subset.refl _) rfl (by simp [hp, Place.ClaimsAll]) (by simp [hp]) id

end

omit [DecidableEq ε] [DecidableEq ι] in
theorem Steady.claimer {f : ε} {g : ℕ} (hp : l.place = .tryClaim e one batch) (hf : e ≠ f)
    (hb : ¬ b.Live) (hs : (l.goto b).section? ≠ some f) : Steady f g l (l.goto b) := by
  apply Steady.away _ hb _ hs <;> simp [hp, hf]

section
variable (h : Inv waker s)
include h

section
variable (htaken : (s.event e).taken = some (w, i))
include htaken

theorem Inv.claimFails (hp : (s.party t).place = .tryClaim e one batch)
    (hw : (s.party w).winner ≠ none) : Inv waker ((s.set e { s.event e with taken := none }).put t
      ((s.party t).goto (.claim e one batch))) := by
  constructor
  · apply h.party.stay ((h.party.each t).away id)
    · simp [hp]
    · simp [hp]
    · exact fun _ => rfl
    · intro x seq batch hx
      cases hx
  · intro f
    by_cases hf : e = f
    · subst hf
      simpa using (h.event e).drop batch htaken hw hp
    · have hsteady : Steady f (s.event f).generation (s.party t)
          ((s.party t).goto (.claim e one batch)) := by
        apply Steady.claimer hp hf id
        simp [hf]
      simpa [Ne.symm hf] using (h.event f).steady hsteady

omit [DecidableEq ε] [DecidableEq ι] in
theorem Inv.taken_linked : (s.party w).place.Live ∧ i < (s.party w).events.length := by
  obtain ⟨hlive, hev, -⟩ := (h.event e).queue.linked w i (by simp [Event.waiters, htaken])
  exact ⟨hlive, (List.getElem?_eq_some_iff.mp hev).1⟩

theorem Inv.claimFor (hp : (s.party t).place = .tryClaim e one batch)
    (hw : (s.party w).winner = none) (hb : ¬ b.Live)
    (hsec : ∀ f, e ≠ f → ((s.party t).goto b).section? ≠ some f)
    (hmine : ∀ x, x ∈ ((s.party t).goto b).owes t ↔ x = w ∨ x ∈ batch)
    (honce : w ∉ batch → batch.Nodup → (((s.party t).goto b).owes t).Nodup)
    (htarget : ∀ x seq batch, b = .wake x seq batch → seq = (s.party x).seq)
    (hdrop : ∀ {party}, EventOk e (s.event e) party → (party t).place = .tryClaim e one batch →
      (party w).winner ≠ none → EventOk e c (update party t ((party t).goto b))) :
    Inv (update waker w (some t))
      (((s.set e c).put w ((s.party w).claimed i)).put t ((s.party t).goto b)) := by
  obtain ⟨hwlive, hi⟩ := h.taken_linked htaken
  have hwakes : (s.party w).wakes = 0 := by
    by_contra hne
    exact ((h.party.each w).group hwlive).winner_ne_none hne hw
  have hfree := h.party.waker_eq_none hw
  have howes : (s.party t).owes t = batch := by simp [hp]
  have hnot : w ∉ batch := by
    rw [← howes, h.party.owes, hfree]
    simp
  have htw : t ≠ w := by
    rintro rfl
    rw [hp] at hwlive
    exact hwlive
  have hmover : update s.party w ((s.party w).claimed i) t = s.party t :=
    update_of_ne htw _ _
  constructor
  · refine h.party.exchange (by simp [hfree]) (by simp) (fun heq => absurd heq.symm htw)
      (fun _ => rfl) ((h.party.each w).claimed hwlive hw hi) ((h.party.each t).away hb) rfl rfl
      (iff_of_true (Option.some_ne_none t) ⟨hwlive, by simp, hwakes⟩) (fun _ => ?_) (fun y => ?_)
      (honce hnot ?_) htarget
    · exact iff_of_false (fun ho => by simp [hp] at ho) fun ho => hb ho.1
    · rw [hmine, howes]
      by_cases hy : y = w
      · simp [hy]
      · simp [hy]
    · rw [← howes]
      exact h.party.once t
  · intro f
    have hclaimed := (h.event f).steady (t := w) (l := (s.party w).claimed i)
      (by apply Steady.same <;> simp)
    by_cases hf : e = f
    · subst hf
      have hnext := hdrop hclaimed (by rw [hmover]; exact hp) (by simp)
      rw [hmover] at hnext
      simpa using hnext
    · have hsteady : Steady f (s.event f).generation (s.party t) ((s.party t).goto b) :=
        .claimer hp hf hb (hsec f hf)
      rw [← hmover] at hsteady
      have hnext := hclaimed.steady hsteady
      rw [hmover] at hnext
      simpa [Ne.symm hf] using hnext

theorem Inv.claimForBatch (hp : (s.party t).place = .tryClaim e false batch)
    (hw : (s.party w).winner = none) :
    Inv (update waker w (some t))
      (((s.set e { s.event e with taken := none }).put w ((s.party w).claimed i)).put t
        ((s.party t).goto (.claim e false (batch ++ [w])))) := by
  refine h.claimFor htaken hp hw id (by simp) (by simp [or_comm]) (fun hnot hnodup => ?_) (by simp)
    fun hev hp hw => hev.drop _ htaken hw hp
  simp only [Local.goto, Local.owes, List.nodup_append, hnodup, List.nodup_singleton,
    List.mem_singleton, true_and]
  rintro a ha b rfl rfl
  exact hnot ha

theorem Inv.claimOne (hp : (s.party t).place = .tryClaim e true batch)
    (hw : (s.party w).winner = none) :
    Inv (update waker w (some t))
      (((s.set e { s.event e with
        taken := none
        queued := if (s.event e).queue = [] then false else (s.event e).queued
        lock := none }).put w ((s.party w).claimed i)).put t
          ((s.party t).goto (.wake w (s.party w).seq batch))) := by
  refine h.claimFor htaken hp hw id (by simp) (by simp) (fun hnot hnodup => ?_)
    (fun x seq batch hx => ?_) fun hev hp hw => hev.dropOne _ htaken hw _ hp
  · simp [hnot, hnodup]
  · obtain ⟨rfl, rfl, -⟩ := Place.wake.inj hx
    rfl

end

omit [DecidableEq ε] in
theorem Inv.wake {seq : ℕ} (hp : (s.party t).place = .wake w seq batch) :
    Inv (update waker w none)
      ((s.put w (s.party w).woken).put t ((s.party t).goto (.wakeBatch batch))) := by
  have hmine : (s.party t).owes t = w :: batch := by simp [hp]
  have hnodup := h.party.once t
  rw [hmine, List.nodup_cons] at hnodup
  have hwaker : waker w = some t := (h.party.owes t w).mp (by rw [hmine]; exact List.mem_cons_self)
  have howed : (s.party w).Owed := (h.party.owed w).mp (by simp [hwaker])
  have htw : t ≠ w := by
    rintro rfl
    have hlive := howed.1
    rw [hp] at hlive
    exact hlive
  -- a thread that is about to wake itself owes the wake, so it is not this one
  have hself : (s.party w).place ≠ .wakeSelf ∧ (s.party w).place ≠ .wakeZero := by
    constructor <;> intro hw <;>
    · have hmem : w ∈ (s.party w).owes w := by simp [hw]
      have := (h.party.owes w w).mp hmem
      rw [hwaker] at this
      exact htw (Option.some.inj this)
  have hmover : update s.party w (s.party w).woken t = s.party t :=
    update_of_ne htw _ _
  constructor
  · refine h.party.exchange (by simp [hwaker]) (by simp) (fun heq => absurd heq.symm htw)
      (fun _ => rfl) ((h.party.each w).woken howed hself.1 hself.2) ((h.party.each t).away id) rfl rfl
      (by simp) (fun _ => by simp [hp]) (fun y => ?_) hnodup.2 (by simp)
    rw [hmine]
    by_cases hy : y = w
    · simp [hy, hnodup.1]
    · simp [hy]
  · intro e
    have hwoken := (h.event e).steady (t := w) (l := (s.party w).woken)
      (by apply Steady.same <;> simp)
    have hsteady : Steady e (s.event e).generation (s.party t)
        ((s.party t).goto (.wakeBatch batch)) := by
      apply Steady.away <;> simp [hp]
    rw [← hmover] at hsteady
    have hnext := hwoken.steady hsteady
    rw [hmover] at hnext
    exact hnext

/-- The registrations of a wait are not allocated while the mutex of the heap is held, and a
generation does not come round. -/
def Permitted (t : ι) (s : State ε ι) : Prop :=
  ((s.party t).place = .allocate → INLINE_WAITERS < (s.party t).events.length →
    s.heapHeld = false) ∧ ∀ e, (s.event e).generation + 1 < 2 ^ 64

theorem Inv.step (hstep : Step t s s') (hperm : Permitted t s) : ∃ waker', Inv waker' s' := by
  cases hstep with
  | own hg => exact ⟨waker, h.own hg⟩
  | act ha => exact ⟨waker, h.act ha⟩
  | allocateSleeps hp hlen hheap =>
    rw [hperm.1 hp hlen] at hheap
    cases hheap
  | claimSelf hp hw =>
    have hplace := (h.party.each t).place
    unfold Local.PlaceOk at hplace
    rw [hp] at hplace
    exact ⟨_, h.claimOwn hw hplace.1 (.inl ⟨hp, rfl⟩)⟩
  | wakeSelf hp _ => exact ⟨_, h.wakeOwn (.inl ⟨hp, rfl⟩)⟩
  | claimZero hp hw =>
    have hplace := (h.party.each t).place
    unfold Local.PlaceOk at hplace
    rw [hp] at hplace
    have hlen := (h.party.each t).ticket hplace.2.2.2
    exact ⟨_, h.claimOwn hw (by omega) (.inr ⟨hp, rfl⟩)⟩
  | wakeZero hp _ => exact ⟨_, h.wakeOwn (.inr ⟨hp, rfl⟩)⟩
  | claimFails hp htaken hw => exact ⟨_, h.claimFails htaken hp hw⟩
  | claimForBatch hp htaken hw => exact ⟨_, h.claimForBatch htaken hp hw⟩
  | claimOne hp htaken hw => exact ⟨_, h.claimOne htaken hp hw⟩
  | wake hp _ => exact ⟨_, h.wake hp⟩

end

end Roanix.Sys.EventM
