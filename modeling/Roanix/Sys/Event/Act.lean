import Roanix.Sys.Event.Queue

/-! Steps of a thread at an event. -/
namespace Roanix.Sys.EventM
open Lib Function Steady

variable {ε ι : Type} [DecidableEq ι] {t : ι} {e : ε} {c c' : Event ι} {l l' : Local ε ι}

attribute [local simp] Local.goto Local.section? Local.Overdue Place.Live Place.Notifies
  Place.Trying Place.Claiming Place.ClaimsAll Place.Keeps Place.Checked

omit [DecidableEq ι] in
theorem Local.Linked.lt {i : ℕ} (h : l.Linked e i) (hp : l.place ≠ .undo) : i < l.index :=
  h.2.2.1.resolve_right fun hu => hp hu.1

theorem LocalOk.acts (h : LocalOk l) (ha : Acts t e c l c' l') : LocalOk l' := by
  have hplace := h.place
  unfold Local.PlaceOk at hplace
  cases ha with
  | signal hp =>
    split_ifs
    · exact h.away id
    · exact h
  | reset hp => exact h
  | notify hp | claimLock hp | pop hp | claimEnds hp => exact h.away id
  | wakeAllLoad hp => split_ifs <;> exact h.away id
  | registerLock hp | loadSignaled hp | pushSignaled hp | undo hp | unregister hp =>
    rw [hp] at hplace
    exact h.goto (by rw [hp]; trivial) hplace
  | push hp he hs =>
    have hgroup := h.group (by rw [hp]; trivial)
    rw [hp] at hplace
    obtain ⟨hlt, hplace⟩ := hplace
    exact ⟨fun _ => { hgroup with index_le := hlt },
      hplace, h.ticket⟩

section
variable (ha : Acts t e c l c' l')
include ha

theorem Acts.owes_owed : (∀ u, l'.owes u = l.owes u) ∧ (l.Owed ↔ l'.Owed) := by
  cases ha with
  | signal hp | wakeAllLoad hp => split_ifs <;> simp [hp, Local.owes, Local.Owed]
  | reset hp => exact ⟨fun _ => rfl, Iff.rfl⟩
  | notify hp | registerLock hp | loadSignaled hp | push hp | pushSignaled hp | undo hp
  | unregister hp | claimLock hp | pop hp | claimEnds hp =>
    simp [hp, Local.owes, Local.Owed]

theorem Acts.seq_eq : l'.seq = l.seq := by
  cases ha with
  | signal hp => split_ifs <;> rfl
  | _ => rfl

theorem Acts.place_ne_wake (w : ι) (seq : ℕ) (batch : List ι) :
    l'.place ≠ .wake w seq batch := by
  cases ha with
  | signal hp => split_ifs <;> simp [hp]
  | wakeAllLoad hp => split_ifs <;> simp
  | reset hp => simp [hp]
  | _ => simp

theorem Acts.steady {f : ε} (hf : e ≠ f) (g : ℕ) : Steady f g l l' := by
  have hne : ∀ i : ℕ, l.events[i]? = some e → l.events[i]? ≠ some f := by
    intro i hi hi'
    exact hf (Option.mem_unique hi hi')
  cases ha with
  | signal hp =>
    split_ifs <;> apply away <;>
      simp [hp]
  | reset hp | notify hp =>
    apply away <;> simp [hp]
  | wakeAllLoad hp =>
    split_ifs <;> apply away <;>
      simp [hp, hf]
  | registerLock hp he | loadSignaled hp he | pushSignaled hp he | undo hp he =>
    apply goto <;>
      simp [hp, hne _ he]
  | push hp he hs =>
    have hnot : l.place ≠ .undo := by simp [hp]
    refine ⟨⟨?_, ?_, ?_, ?_, ?_, ?_⟩, ?_, ?_, ?_, ?_⟩
    · exact fun i hi => ⟨trivial, hi.2.1, .inl (Nat.lt_succ_of_lt (hi.lt hnot)), trivial⟩
    · rintro i ⟨-, hw, hlt, hi⟩
      refine ⟨by rw [hp]; trivial, hw, ?_, hi⟩
      apply Nat.lt_of_le_of_ne (Nat.le_of_lt_succ hlt)
      rintro rfl
      exact hne _ he hi
    · intro hu
      cases hu
    · exact fun i hi _ => hi.lt hnot
    all_goals simp [hp, hne _ he]
  | @unregister i hp he =>
    apply goto
    case hkeep =>
      intro j hj hk
      simp only [hp] at hk ⊢
      apply Nat.lt_of_le_of_ne hk
      rintro rfl
      exact hne _ he hj
    all_goals simp [hp]
  | claimLock hp | claimEnds hp | pop hp =>
    apply away <;> simp [hp, hf]

end

variable {party : ι → Local ε ι}

section
omit [DecidableEq ι]

theorem Local.Overdue.unclaimed {g : ℕ} (ho : l.Overdue e g) (h : LocalOk l) : l.Unclaimed e 0 := by
  obtain ⟨hchecked, hw, hevents, -⟩ := ho
  have hplace := h.place
  unfold Local.PlaceOk at hplace
  have hindex : l.place.Live ∧ l.index = l.events.length := by
    cases hp : l.place <;> simp_all [Place.Checked, Place.Live]
  exact ⟨hindex.1, hw, by simp [hindex.2, hevents], by simp [hevents]⟩

section
variable (h : EventOk e c party)
include h

theorem EventOk.not_overdue (hok : ∀ u, LocalOk (party u))
    (hempty : c.waiters = []) (u : ι) (g : ℕ) : ¬ (party u).Overdue e g := by
  intro ho
  have hmem := h.queue.pending u 0 (ho.unclaimed (hok u))
  rw [hempty] at hmem
  cases hmem

theorem EventOk.eq_of_trying (ht : (party t).section? = some e) (u : ι)
    (hu : (party u).place.Trying e) : u = t :=
  h.latch.unique (section_of_claiming hu.claiming) ht

theorem EventOk.taken_eq_none (ht : (party t).section? = some e)
    (hnot : ¬ (party t).place.Trying e) : c.taken = none := by
  by_contra hne
  obtain ⟨u, hu⟩ := h.queue.taken.mp hne
  exact hnot (h.eq_of_trying ht u hu ▸ hu)

theorem EventOk.taken_eq_none_of_unlocked (hl : c.lock = none) :
    c.taken = none := by
  by_contra hne
  obtain ⟨u, hu⟩ := h.queue.taken.mp hne
  have := (h.latch u).mpr (section_of_claiming hu.claiming)
  rw [hl] at this
  cases this

theorem EventOk.no_undo (ht : (party t).section? = some e)
    (hnot : (party t).place ≠ .undo) (u : ι) (hu : (party u).place = .undo) :
    (party u).events[(party u).index]? ≠ some e := by
  intro he
  have hsec : (party u).section? = some e := by
    unfold Local.section?
    rw [hu]
    exact he
  have := h.latch.unique hsec ht
  subst this
  exact hnot hu

end

end

theorem EventOk.acts (h : EventOk e c party) (hok : ∀ u, LocalOk (party u))
    (ha : Acts t e c (party t) c' l') : EventOk e c' (update party t l') := by
  cases ha with
  | signal hp =>
    by_cases hq : c.queued = true
    · rw [if_pos hq]
      have hsteady : Steady e c.generation (party t) ((party t).goto (.claimLock e false)) := by
        apply away <;> simp [hp]
      have hnext := h.steady hsteady
      refine ⟨hnext.latch, hnext.queue.congr rfl rfl rfl, ?_, hnext.notified⟩
      intro _ u i _ _
      exact ⟨t, update_mover (fun l : Local ε ι => l.place.ClaimsAll e) ⟨rfl, rfl⟩⟩
    · rw [if_neg hq, update_eq_self]
      have hempty := h.queue.waiters_eq_nil (by simpa using hq)
      refine ⟨h.latch, h.queue.congr rfl rfl rfl, ?_, h.notified⟩
      intro _ u i hmem
      have hin : (u, i) ∈ c.waiters := List.mem_append_right _ hmem
      rw [hempty] at hin
      cases hin
  | reset hp =>
    rw [update_eq_self]
    exact ⟨h.latch, h.queue.congr rfl rfl rfl, fun hs => (by cases hs), h.notified⟩
  | notify hp =>
    have hsteady : Steady e c.generation (party t) ((party t).goto (.wakeAll e)) := by
      apply away <;> simp [hp]
    have hnext := h.steady hsteady
    refine ⟨hnext.latch, hnext.queue.congr rfl rfl rfl, hnext.signaled, ?_⟩
    intro u _
    exact ⟨t, update_mover (fun l : Local ε ι => l.place.Notifies e) rfl⟩
  | wakeAllLoad hp =>
    have hcalm : ∀ b, b = .claimLock e false ∨ b = .idle → Calm e (party t) ((party t).goto b) := by
      rintro b (rfl | rfl) <;> apply Calm.away <;>
        simp [hp]
    by_cases hq : c.queued = true
    · rw [if_pos hq]
      exact h.moved (h.latch.stay (by simp [hp])) (h.queue.calm (hcalm _ (.inl rfl))) rfl rfl
        (List.Subset.refl _) rfl (by simp [hp]) (fun _ => ⟨rfl, rfl⟩) id
    · rw [if_neg hq]
      have hempty := h.queue.waiters_eq_nil (by simpa using hq)
      refine ⟨h.latch.stay ?_, h.queue.calm (hcalm _ (.inr rfl)), ?_, ?_⟩
      · simp [hp]
      · exact h.signaled_stay (hcalm _ (.inr rfl)).index (by simp [hp])
      · intro u hu
        have hnot : ¬ ((party t).goto .idle).Overdue e c.generation := fun ho => ho.1.elim
        exact absurd (of_update _ hnot hu) (h.not_overdue hok hempty u _)
  | registerLock hp he hl =>
    have hcalm : Calm e (party t) ((party t).goto .load) := by
      apply Calm.goto <;> simp [hp]
    have hlatch := h.latch
    rw [hl] at hlatch
    exact h.moved (hlatch.enter he) ((h.queue.calm hcalm).congr rfl rfl rfl) rfl rfl
      (List.Subset.refl _) rfl (by simp [hp]) (by simp [hp]) id
  | loadSignaled hp he hs =>
    have hcalm : Calm e (party t) ((party t).goto .claimSelf) := by
      apply Calm.goto <;> simp [hp]
    have hsec : (party t).section? = some e := by simp [hp, he]
    exact h.moved (h.latch.leave hsec (by simp)) ((h.queue.calm hcalm).congr rfl rfl rfl) rfl rfl
      (List.Subset.refl _) rfl (by simp [hp]) (by simp [hp]) id
  | push hp he hs =>
    have hsec : (party t).section? = some e := by simp [hp, he]
    have hnot : (party t).place ≠ .undo := by simp [hp]
    refine ⟨h.latch.leave hsec ?_, QueueOk.congr (h.queue.push ?_ ?_ ?_ ?_ ?_ ?_) rfl rfl rfl, ?_, ?_⟩
    · simp
    · exact fun hi => lt_irrefl _ (hi.lt hnot)
    · exact ⟨trivial, he, .inl (Nat.lt_succ_self _), trivial⟩
    · exact fun j hj => ⟨trivial, hj.2.1, .inl (Nat.lt_succ_of_lt (hj.lt hnot)), trivial⟩
    · rintro j ⟨-, hw, hlt, hj⟩
      obtain hlt | heq := Nat.lt_succ_iff_lt_or_eq.mp hlt
      · exact .inr ⟨by rw [hp]; trivial, hw, hlt, hj⟩
      · exact .inl heq
    · simp
    · simp [hp]
    · intro hs'
      rw [hs] at hs'
      cases hs'
    · apply h.notified_stay
      · simp [hp]
      · exact fun ho => ho.1.elim
  | pushSignaled hp he hs =>
    have hnot : (party t).place ≠ .undo := by simp [hp]
    refine ⟨h.latch.stay ?_, h.queue.push ?_ ?_ ?_ ?_ ?_ ?_, ?_, ?_⟩
    · simp [hp]
    · exact fun hi => lt_irrefl _ (hi.lt hnot)
    · exact ⟨trivial, he, .inr ⟨rfl, rfl⟩, trivial⟩
    · exact fun j hj => ⟨trivial, hj.2.1, .inl (hj.lt hnot), trivial⟩
    · rintro j ⟨-, hw, hlt, hj⟩
      exact .inr ⟨by rw [hp]; trivial, hw, hlt, hj⟩
    · exact fun _ => rfl
    · simp [hp]
    · intro _ u i hmem hi
      rw [Lib.update_congr Local.index (by rfl)] at hi
      refine exists_update (h.signaled hs u i ?_ hi) (by simp [hp])
      rw [List.mem_append, List.mem_singleton] at hmem
      obtain hmem | heq := hmem
      · exact hmem
      · obtain ⟨rfl, rfl⟩ := Prod.mk.inj heq
        exact absurd hi (lt_irrefl _)
    · apply h.notified_stay
      · simp [hp]
      · exact fun ho => ho.1.elim
  | undo hp he =>
    have hsec : (party t).section? = some e := by simp [hp, he]
    have hnone := h.taken_eq_none hsec (by simp [hp])
    refine h.moved (h.latch.leave hsec (by simp))
      (QueueOk.congr (h.queue.unlink hnone ?_ ?_ ?_ ?_ ?_) rfl rfl rfl) rfl rfl
      (List.erase_subset) rfl (by simp [hp]) (by simp [hp]) id
    · rintro j hne ⟨-, hj, hlt | ⟨-, heq⟩, -⟩
      · exact ⟨trivial, hj, .inl hlt, trivial⟩
      · exact absurd heq hne
    · rintro j ⟨-, hw, hlt, hj⟩
      exact ⟨hlt.ne, by rw [hp]; trivial, hw, hlt, hj⟩
    · simp
    · simp
    · simp [hp]
  | @unregister i hp he hl =>
    have hnone := h.taken_eq_none_of_unlocked hl
    obtain ⟨-, -, hwinner⟩ := (hok t).leaving (.inr ⟨i, hp⟩)
    refine h.moved (h.latch.stay (by simp [hp])) (h.queue.unlink hnone ?_ ?_ ?_ ?_ ?_) rfl rfl
      (List.erase_subset) rfl (by simp [hp]) (by simp [hp]) id
    · intro j hne hj
      have hk := hj.2.2.2
      refine ⟨trivial, hj.2.1, .inl (hj.lt (by simp [hp])), ?_⟩
      simp only [hp, Local.goto, Place.Keeps] at hk ⊢
      omega
    · rintro j ⟨-, hw, -, -⟩
      exact absurd hw hwinner
    · simp
    · simp
    · simp [hp]
  | @claimLock one hp hl =>
    have hcalm : Calm e (party t) ((party t).goto (.claim e one [])) := by
      apply Calm.away <;> simp [hp]
    have hlatch := h.latch
    rw [hl] at hlatch
    exact h.moved (hlatch.enter (by simp)) ((h.queue.calm hcalm).congr rfl rfl rfl) rfl rfl
      (List.Subset.refl _) rfl (by simp [hp]) (by simp [hp]) id
  | @pop one batch waiter rest hp hq =>
    have hsec : (party t).section? = some e := by simp [hp]
    have hnone := h.taken_eq_none hsec (by simp [hp])
    refine h.moved (h.latch.stay (by simp [hp])) (h.queue.pop ?_ ?_ ?_ hq hnone ?_) rfl rfl ?_ rfl
      (by simp [hp]) (by simp [hp]) id
    · simp [hp]
    · simp
    · exact h.no_undo hsec (by simp [hp])
    · rfl
    · rw [hq]
      exact List.subset_cons_self _ _
  | @claimEnds one batch hp hq =>
    have hsec : (party t).section? = some e := by simp [hp]
    have hnone := h.taken_eq_none hsec (by simp [hp])
    have hclose := h.queue.close (t := t) (l := (party t).goto (.wakeBatch batch)) hq hnone (by simp [hp]) id id
    refine ⟨h.latch.leave hsec ?_, hclose.congr rfl rfl rfl, ?_, ?_⟩
    · simp
    · intro _ u i hmem
      rw [hq] at hmem
      cases hmem
    · intro u hu
      have hnot : ¬ ((party t).goto (.wakeBatch batch)).Overdue e c.generation :=
        fun ho => ho.1.elim
      exact absurd (of_update _ hnot hu)
        (h.not_overdue hok (by simp [Event.waiters, hq, hnone]) u _)

variable [DecidableEq ε] {s : State ε ι} {waker : ι → Option ι}

theorem Inv.act (h : Inv waker s) (ha : Acts t e (s.event e) (s.party t) c l) :
    Inv waker ((s.set e c).put t l) := by
  obtain ⟨howes, howed⟩ := ha.owes_owed
  constructor
  · apply h.party.stay ((h.party.each t).acts ha) (howes t) howed fun _ => ha.seq_eq
    intro w seq batch hw
    exact absurd hw (ha.place_ne_wake w seq batch)
  · intro f
    by_cases hf : e = f
    · subst hf
      have hevent : ((s.set e c).put t l).event e = c := by simp [State.put, State.set]
      rw [hevent]
      exact (h.event e).acts h.party.each ha
    · have hevent : ((s.set e c).put t l).event f = s.event f := by
        simp [State.put, State.set, Ne.symm hf]
      rw [hevent]
      exact (h.event f).steady (ha.steady hf _)

end Roanix.Sys.EventM
