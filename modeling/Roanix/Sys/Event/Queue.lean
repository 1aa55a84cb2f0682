import Roanix.Sys.Event.Own

/-! What each operation on an event's queue keeps. -/
namespace Roanix.Sys.EventM
open Lib Function List

variable {ε ι : Type} [DecidableEq ι] {party : ι → Local ε ι} {t : ι} {l : Local ε ι} {e : ε}
  {c c' : Event ι} {i : ℕ}

attribute [local simp] Event.waiters

section
variable (h : QueueOk e c party)
include h

omit [DecidableEq ι] in
theorem QueueOk.congr (hqueue : c'.queue = c.queue) (htaken : c'.taken = c.taken)
    (hqueued : c'.queued = c.queued) : QueueOk e c' party := by
  cases c
  cases c'
  subst hqueue htaken hqueued
  exact { h with }

omit [DecidableEq ι] in
theorem QueueOk.waiters_eq_nil (hq : c.queued = false) : c.waiters = [] := by
  by_contra hne
  have := h.queued hne
  rw [hq] at this
  cases this

theorem QueueOk.push (hfresh : ¬ (party t).Linked e i) (hnew : l.Linked e i)
    (hold : ∀ j, (party t).Linked e j → l.Linked e j)
    (hun : ∀ j, l.Unclaimed e j → j = i ∨ (party t).Unclaimed e j)
    (hundo : l.place = .undo → l.index = i) (htry : (party t).place.Trying e ↔ l.place.Trying e) :
    QueueOk e { c with queue := c.queue ++ [(t, i)], queued := true }
      (update party t l) := by
  have hwaiters : Event.waiters { c with queue := c.queue ++ [(t, i)], queued := true } =
      c.waiters ++ [(t, i)] := by
    simp
  have hnot : (t, i) ∉ c.waiters := fun hmem => hfresh (h.linked t i hmem)
  constructor
  · rw [hwaiters, nodup_append]
    refine ⟨h.nodup, nodup_singleton _, ?_⟩
    intro a ha b hb heq
    rw [mem_singleton] at hb
    subst hb
    exact hnot (heq ▸ ha)
  · intro u j hmem
    rw [hwaiters, mem_append, mem_singleton] at hmem
    obtain hmem | heq := hmem
    · exact update_keep (Local.Linked e j) (h.linked u j hmem) (hold j)
    · obtain ⟨rfl, rfl⟩ := Prod.mk.inj heq
      exact update_mover (Local.Linked e j) hnew
  · intro u j hu
    rw [hwaiters, mem_append, mem_singleton]
    obtain ⟨rfl, hnew⟩ | ⟨-, hold⟩ := update_cases (Local.Unclaimed e j) hu
    · obtain rfl | hun := hun j hnew
      · exact .inr rfl
      · exact .inl (h.pending u j hun)
    · exact .inl (h.pending u j hold)
  · intro u hu he
    rw [mem_append, mem_singleton]
    by_cases hut : u = t
    · subst hut
      rw [update_self] at hu ⊢
      rw [hundo hu]
      exact .inr rfl
    · rw [update_of_ne hut] at hu he ⊢
      exact .inl (h.undo u hu he)
  · refine h.taken.trans ⟨fun htrying => exists_update htrying htry.mp, ?_⟩
    rintro ⟨u, hu⟩
    exact ⟨u, update_back (fun l : Local ε ι => l.place.Trying e) htry.mpr hu⟩
  · intro _
    rfl
  · intro _ hempty
    simp at hempty

theorem QueueOk.unlink (hnone : c.taken = none)
    (hold : ∀ j, j ≠ i → (party t).Linked e j → l.Linked e j)
    (hun : ∀ j, l.Unclaimed e j → j ≠ i ∧ (party t).Unclaimed e j) (hundo : l.place ≠ .undo)
    (htry : ¬ l.place.Trying e) (hclaim : (party t).place.Claiming e → l.place.Claiming e) :
    QueueOk e (c.unlink (t, i)) (update party t l) := by
  have hwaiters : c.waiters = c.queue := by simp [hnone]
  have hwaiters' : (c.unlink (t, i)).waiters = c.queue.erase (t, i) := by
    simp [Event.unlink, hnone]
  have hnodup : c.queue.Nodup := hwaiters ▸ h.nodup
  constructor
  · rw [hwaiters']
    exact hnodup.erase _
  · intro u j hmem
    rw [hwaiters', hnodup.mem_erase_iff] at hmem
    have hlinked := h.linked u j (by rw [hwaiters]; exact hmem.2)
    by_cases hut : u = t
    · subst hut
      refine update_mover (Local.Linked e j) (hold j ?_ hlinked)
      rintro rfl
      exact hmem.1 rfl
    · exact update_other (Local.Linked e j) hut hlinked
  · intro u j hu
    rw [hwaiters', hnodup.mem_erase_iff, ← hwaiters]
    obtain ⟨rfl, hnew⟩ | ⟨hne, hold⟩ := update_cases (Local.Unclaimed e j) hu
    · obtain ⟨hji, hun⟩ := hun j hnew
      exact ⟨fun heq => hji (Prod.mk.inj heq).2, h.pending u j hun⟩
    · exact ⟨fun heq => hne (Prod.mk.inj heq).1, h.pending u j hold⟩
  · intro u hu he
    by_cases hut : u = t
    · subst hut
      rw [update_self] at hu
      exact absurd hu hundo
    · rw [update_of_ne hut] at hu he ⊢
      apply hnodup.mem_erase_iff.mpr
      exact ⟨fun heq => hut (Prod.mk.inj heq).1, h.undo u hu he⟩
  · constructor
    · intro htaken
      exact absurd hnone htaken
    · rintro ⟨u, hu⟩
      have htrying := of_update (fun l : Local ε ι => l.place.Trying e) htry hu
      exact absurd hnone (h.taken.mpr ⟨u, htrying⟩)
  · intro hne
    rw [hwaiters'] at hne
    unfold Event.unlink
    rw [if_neg (fun hand => hne hand.2)]
    apply h.queued
    rw [hwaiters]
    rintro hnil
    rw [hnil] at hne
    exact hne rfl
  · intro hq hempty
    unfold Event.unlink at hq hempty
    by_cases hmem : (t, i) ∈ c.queue
    · rw [if_pos ⟨hmem, hempty⟩] at hq
      cases hq
    · rw [if_neg (fun hand => hmem hand.1)] at hq
      rw [erase_of_not_mem hmem] at hempty
      exact exists_update (h.empty hq hempty) hclaim

section
variable (hlive : ¬ (party t).place.Live) (hlive' : ¬ l.place.Live)
  (hundo : ∀ u, (party u).place = .undo → (party u).events[(party u).index]? ≠ some e)
include hlive hlive' hundo

theorem QueueOk.away (hsub : c'.waiters.Sublist c.waiters)
    (hkeep : ∀ u j, (party u).Unclaimed e j → (u, j) ∈ c.waiters → (u, j) ∈ c'.waiters)
    (htaken : c'.taken ≠ none ↔ ∃ u, (update party t l u).place.Trying e)
    (hqueued : c'.waiters ≠ [] → c'.queued = true)
    (hempty : c'.queued = true → c'.queue = [] → ∃ u, (update party t l u).place.Claiming e) :
    QueueOk e c' (update party t l) := by
  refine ⟨h.nodup.sublist hsub, fun u j hmem => ?_, fun u j hu => ?_, fun u hu he => ?_, htaken,
    hqueued, hempty⟩
  · exact update_keep (Local.Linked e j) (h.linked u j (hsub.subset hmem))
      fun hl => absurd hl.1 hlive
  · have hun := of_update (Local.Unclaimed e j) (fun hun => hlive' hun.1) hu
    exact hkeep u j hun (h.pending u j hun)
  · have hut : u ≠ t := by
      rintro rfl
      rw [update_self] at hu
      rw [hu] at hlive'
      exact hlive' trivial
    rw [update_of_ne hut] at hu he
    exact absurd he (hundo u hu)

theorem QueueOk.pop {waiter : ι × ℕ} {rest : List (ι × ℕ)} (hq : c.queue = waiter :: rest)
    (hnone : c.taken = none) (htry : l.place.Trying e) :
    QueueOk e { c with queue := rest, taken := some waiter } (update party t l) := by
  have hwaiters : Event.waiters { c with queue := rest, taken := some waiter } = c.waiters := by
    simp [hnone, hq]
  have htrying : ∃ u, (update party t l u).place.Trying e :=
    ⟨t, update_mover (fun l : Local ε ι => l.place.Trying e) htry⟩
  refine h.away hlive hlive' hundo ?_ ?_ ?_ ?_ fun _ _ => ?_
  · rw [hwaiters]
  · rw [hwaiters]
    exact fun _ _ _ => id
  · simp [htrying]
  · rw [hwaiters]
    exact h.queued
  · obtain ⟨u, hu⟩ := htrying
    exact ⟨u, hu.claiming⟩

theorem QueueOk.drop {w : ι} (queued : Bool) (htaken : c.taken = some (w, i))
    (hw : (party w).winner ≠ none) (hsole : ∀ u, (party u).place.Trying e → u = t)
    (htry : ¬ l.place.Trying e) (hqueued : c.queue ≠ [] → queued = c.queued)
    (hempty : queued = true → c.queue = [] → l.place.Claiming e) :
    QueueOk e { c with taken := none, queued := queued } (update party t l) := by
  have hwaiters : c.waiters = (w, i) :: c.queue := by simp [htaken]
  have hwaiters' : Event.waiters { c with taken := none, queued := queued } = c.queue := by
    simp
  refine h.away hlive hlive' hundo ?_ (fun u j hun hmem => ?_) ?_ (fun hne => ?_) fun hq hnil => ?_
  · rw [hwaiters, hwaiters']
    exact sublist_cons_self _ _
  · rw [hwaiters, mem_cons] at hmem
    obtain heq | hmem := hmem
    · obtain ⟨rfl, -⟩ := Prod.mk.inj heq
      exact absurd hun.2.1 hw
    · exact hmem
  · refine iff_of_false (fun hne => hne rfl) ?_
    rintro ⟨u, hu⟩
    obtain ⟨-, hnew⟩ | ⟨hne, hold⟩ := update_cases (fun l : Local ε ι => l.place.Trying e) hu
    · exact htry hnew
    · exact hne (hsole u hold)
  · change queued = true
    rw [hqueued hne]
    exact h.queued (by rw [hwaiters]; simp)
  · exact ⟨t, update_mover (fun l : Local ε ι => l.place.Claiming e) (hempty hq hnil)⟩

end

theorem QueueOk.close (hq : c.queue = []) (hnone : c.taken = none) (hlive : ¬ (party t).place.Live)
    (hlive' : ¬ l.place.Live) (htry : ¬ l.place.Trying e) :
    QueueOk e { c with queued := false } (update party t l) := by
  have hwaiters : Event.waiters { c with queued := false } = [] := by simp [hq, hnone]
  refine h.away hlive hlive' (fun u hu he => ?_) ?_ (fun u j _ => id) ?_ ?_ nofun
  · have hmem := h.undo u hu he
    rw [hq] at hmem
    cases hmem
  · exact List.Sublist.refl c.waiters
  · refine iff_of_false (fun hne => hne hnone) ?_
    rintro ⟨u, hu⟩
    have htrying := of_update (fun l : Local ε ι => l.place.Trying e) htry hu
    exact h.taken.mpr ⟨u, htrying⟩ hnone
  · exact fun hne => absurd hwaiters hne

end

end Roanix.Sys.EventM
