import Roanix.Driver.Graph.Basic

/-! Every step keeps the invariant of the dependency graph. -/
namespace Roanix.Driver.Graph
open Lib Function

attribute [local simp] State.setDependsOn State.setDependents

section Place
variable {μ ι : Type} {s s' : State μ ι} {place : Place μ}

theorem placeOk_of_not_holds (h : ¬ place.Holds) : PlaceOk s place := by
  cases place with
  | idle | check | forget => trivial
  | search | record => exact absurd trivial h

theorem PlaceOk.mono (h : PlaceOk s place)
    (hphase : place.Holds → ∀ x, (s.phase x).IsRegistering → (s'.phase x).IsRegistering)
    (hdep : ∀ x, s'.dependsOn x ⊆ s.dependsOn x) : PlaceOk s' place := by
  cases place with
  | idle | check | forget => trivial
  | search =>
    obtain ⟨hc, hp, hs⟩ := h
    exact ⟨hphase trivial _ hc, hphase trivial _ hp, hs.start,
      fun x hx y hy => hs.closed x hx y (hdep x hy), hs.missed⟩
  | record => exact ⟨hphase trivial _ h.1, hphase trivial _ h.2⟩

end Place

theorem update_subset {μ : Type} [DecidableEq μ] {f : μ → List μ} {m : μ} {l : List μ}
    (h : l ⊆ f m) (x : μ) : update f m l x ⊆ f x := by
  by_cases hx : x = m
  · subst hx
    simpa using h
  · simp [hx]

section Pairs
variable {μ ι : Type} [DecidableEq μ]

theorem links_apply (s : State μ ι) (x y a b : μ) (n : ℕ) :
    (s.setLinks x y n).links a b = if x = a ∧ y = b then n else s.links a b := by
  simp only [State.setLinks, update_apply]
  grind

theorem count_update_cons (f : μ → List μ) (x y a b : μ) :
    (update f x (y :: f x) a).count b =
      (f a).count b + if x = a ∧ y = b then 1 else 0 := by
  obtain rfl | hne := eq_or_ne a x
  · simp [List.count_cons]
  · simp [hne, hne.symm]

theorem count_update_erase (f : μ → List μ) (x y a b : μ) :
    (update f x ((f x).erase y) a).count b =
      (f a).count b - if x = a ∧ y = b then 1 else 0 := by
  obtain rfl | hne := eq_or_ne a x
  · simp [List.count_erase]
  · simp [hne, hne.symm]

end Pairs

variable {μ ι : Type} [Fintype ι] [DecidableEq μ] {s s' : State μ ι} {t : ι} {m : μ}
  {phase : Phase μ}

section Moves

section
variable (h : Inv s)
include h

theorem Inv.rephase (hphase : (s.phase m).IsRegistering → phase.IsRegistering ∨ s.graph = none)
    (hkept : phase.Kept → (s.phase m).Kept) (hcleared : phase.Cleared → s.dependsOn m = [])
    (hreg : phase.Registered → (s.phase m).Registered ∨ s.dependents m = [])
    (hdropped : ∀ b, (s.phase b).Registered → phase.Dropped b →
      (s.dependents b).count m ≤ count (· = Place.forget m b) s.party)
    (halone : phase.Alone → s.dependents m = []) : Inv (s.turn m phase) where
  lock := h.lock
  place u := by
    refine (h.place u).mono ?_ fun x => List.Subset.refl _
    intro hu x hx
    refine update_keep Phase.IsRegistering hx fun hm => (hphase hm).resolve_right ?_
    exact fun hg => h.no_holder hg hu
  cleared x hx := by
    obtain ⟨rfl, hnew⟩ | ⟨-, hold⟩ := update_cases Phase.Cleared hx
    · exact hcleared hnew
    · exact h.cleared x hold
  acyclic := h.acyclic
  forward a b ha := h.forward a b (update_back Phase.Kept hkept ha)
  backward a b ha := h.backward a b (update_back Phase.Kept hkept ha)
  dropped a b hb ha := by
    have hbefore : (s.phase b).Registered ∨ s.dependents b = [] := by
      obtain ⟨rfl, hnew⟩ | ⟨-, hold⟩ := update_cases Phase.Registered hb
      · exact hreg hnew
      · exact .inl hold
    obtain hbefore | hnil := hbefore
    · obtain ⟨rfl, hnew⟩ | ⟨-, hold⟩ := update_cases (Phase.Dropped b) ha
      · exact hdropped b hbefore hnew
      · exact h.dropped a b hbefore hold
    · change (s.dependents b).count a ≤ _
      simp [hnil]
  alone x hx := by
    obtain ⟨rfl, hnew⟩ | ⟨-, hold⟩ := update_cases Phase.Alone hx
    · exact halone hnew
    · exact h.alone x hold

theorem Inv.turn (ht : Turns s m phase) : Inv (s.turn m phase) := by
  refine h.rephase ht.isRegistering ht.kept ?_ ?_ ?_ ?_
  · exact fun hc => h.cleared m (ht.cleared hc)
  · exact fun hr => (ht.registered hr).imp_right (h.alone m)
  · intro b hb hd
    obtain hd | ⟨hk, hb⟩ := ht.dropped hd
    · exact h.dropped m b ‹_› hd
    · have hforward := h.forward m b hk
      have hbackward := h.backward m b hk
      rw [List.count_eq_zero_of_not_mem hb] at hforward
      omega
  · exact fun ha => (ht.alone ha).elim (h.alone m) id

variable {failed : Bool} {provider : μ} {rest : List μ}

theorem Inv.next_provider (hm : s.phase m = .dropping failed (provider :: rest))
    (hp : (s.phase provider).Registered →
      (s.dependents provider).count m ≤ count (· = Place.forget m provider) s.party) :
    Inv (s.turn m (.dropping failed rest)) := by
  refine h.rephase ?_ (fun hk => hk.elim) (fun hc => hc.elim) ?_ ?_ ?_
  · rw [hm]
    exact fun hr => .inl hr
  · rw [hm]
    exact .inl
  · intro b hb hd
    by_cases hbp : b = provider
    · subst hbp
      exact hp hb
    · refine h.dropped m b hb ?_
      rw [hm]
      exact List.not_mem_cons_of_ne_of_not_mem hbp hd
  · intro ha
    refine h.alone m ?_
    rw [hm]
    cases failed with
    | false => trivial
    | true => exact ha.elim

theorem Inv.drop_dependent (hm : ¬ (s.phase m).Kept) (provider : μ) :
    Inv (s.setDependents provider ((s.dependents provider).filter (· ≠ m))) where
  lock := h.lock
  place u := (h.place u).mono (fun _ _ hx => hx) fun x => List.Subset.refl _
  cleared := h.cleared
  acyclic := h.acyclic
  forward := h.forward
  backward a b ha := by
    have ham : a ≠ m := fun he => hm (he ▸ ha)
    refine Eq.trans ?_ (h.backward a b ha)
    by_cases hb : b = provider
    · subst hb
      simp [ham]
    · simp [hb]
  dropped a b hb ha := by
    refine le_trans ?_ (h.dropped a b hb ha)
    by_cases hb : b = provider
    · subst hb
      simpa using List.filter_sublist.count_le a
    · simp [hb]
  alone x hx := by
    by_cases hb : x = provider
    · subst hb
      simp [h.alone x hx]
    · simpa [hb] using h.alone x hx

theorem Inv.clear (hm : ¬ (s.phase m).Kept) : Inv (s.setDependsOn m []) where
  lock := h.lock
  place u := (h.place u).mono (fun _ _ hx => hx) (update_subset (List.nil_subset _))
  cleared x hx := by
    have hsub : (s.setDependsOn m []).dependsOn x ⊆ s.dependsOn x :=
      update_subset (List.nil_subset _) x
    rw [h.cleared x hx] at hsub
    exact List.subset_nil.mp hsub
  acyclic := h.acyclic.mono fun a b hb => update_subset (List.nil_subset _) a hb
  forward a b ha := by
    have ham : a ≠ m := fun he => hm (he ▸ ha)
    simpa [ham] using h.forward a b ha
  backward := h.backward
  dropped := h.dropped
  alone := h.alone

theorem Inv.moves (hm : Moves m s s') : Inv s' := by
  cases hm with
  | turn ht => exact h.turn ht
  | skipEdge hd hp => exact h.next_provider hd fun hr => absurd hr hp
  | @dropEdge failed provider rest hd hp =>
    have hkept : ¬ (s.phase m).Kept := by
      rw [hd]
      exact id
    refine (h.drop_dependent hkept provider).next_provider hd fun _ => ?_
    have hnone : m ∉ (s.dependents provider).filter (· ≠ m) := by simp
    refine le_of_eq_of_le ?_ (Nat.zero_le _)
    refine (congrArg (List.count m) (update_self provider _ _)).trans ?_
    exact List.count_eq_zero_of_not_mem hnone
  | @clear failed hd =>
    have hkept : ¬ (s.phase m).Kept := by
      rw [hd]
      exact id
    refine (h.clear hkept).rephase ?_ (fun hk => hk.elim) ?_ ?_ ?_ ?_
    · exact fun hr => absurd hr (by simp [hd, Phase.IsRegistering, Phase.state])
    · simp
    · exact fun _ => .inl (by simp [hd, Phase.Registered])
    · intro b hb _
      exact h.dropped m b hb (by rw [hd]; exact List.not_mem_nil)
    · intro ha
      refine h.alone m ?_
      rw [hd]
      cases failed with
      | false => trivial
      | true => exact ha.elim

end

end Moves

section Steps
variable [DecidableEq ι] {place : Place μ} {graph : Option ι} {consumer provider : μ}

omit [Fintype ι] [DecidableEq μ] in
theorem goto_place {P : Place μ → Prop} (hmover : P place) (h : ∀ u, u ≠ t → P (s.party u)) (u : ι) :
    P (update s.party t place u) := by
  obtain rfl | hu := eq_or_ne u t
  · exact update_mover _ hmover
  · exact update_other _ hu (h u hu)

theorem count_goto (s : State μ ι) (t : ι) (place q : Place μ) :
    count (· = q) (update s.party t place) + (if s.party t = q then 1 else 0) =
      count (· = q) s.party + if place = q then 1 else 0 :=
  count_update s.party t place

section
variable (h : Inv s)
include h

theorem Inv.goes (hlock : Sole graph Place.Holds (update s.party t place))
    (hfrom : ∀ a b, s.party t ≠ .record a b ∧ s.party t ≠ .forget a b)
    (hto : ∀ a b, place ≠ .record a b ∧ place ≠ .forget a b) (hplace : PlaceOk s place) :
    Inv ({ s with graph := graph }.goto t place) := by
  refine ⟨hlock, goto_place hplace fun u _ => h.place u, h.cleared, h.acyclic, ?_, ?_, ?_, h.alone⟩
  · intro a b ha
    exact (h.forward a b ha).trans (congrArg _ (count_stay (by simp [hfrom, hto])).symm)
  · intro a b ha
    exact (h.backward a b ha).trans (congrArg _ (count_stay (by simp [hfrom, hto])).symm)
  · intro a b hb ha
    exact (h.dropped a b hb ha).trans_eq (count_stay (by simp [hfrom, hto])).symm

theorem Inv.insert {seen : List μ} (ht : s.party t = .search consumer provider seen []) :
    Inv ((s.setDependsOn consumer (provider :: s.dependsOn consumer)).goto t
      (.record consumer provider)) := by
  have hholds : (s.party t).Holds := by
    rw [ht]
    trivial
  have hok := h.place t
  rw [ht] at hok
  obtain ⟨hc, hp, hs⟩ := hok
  constructor
  · exact h.lock.stay (iff_of_true hholds trivial)
  · refine goto_place ⟨hc, hp⟩ ?_
    intro u hu
    exact placeOk_of_not_holds (fun hh => hu (h.lock.unique hh hholds))
  · intro x hx
    have hne : x ≠ consumer := by
      rintro rfl
      exact hc.early.2.1 hx
    exact (update_of_ne hne _ _).trans (h.cleared x hx)
  · refine h.acyclic.insert ?_ hs.not_reach
    intro a b hb
    obtain ⟨rfl, hnew⟩ | ⟨-, hold⟩ := update_cases (b ∈ ·) hb
    · obtain rfl | hb := List.mem_cons.mp hnew
      · exact .inr ⟨rfl, rfl⟩
      · exact .inl hb
    · exact .inl hold
  · intro a b ha
    have hrecord := count_goto s t (.record consumer provider) (.record a b)
    have hforward := h.forward a b ha
    simp only [ht, reduceCtorEq, if_false, Place.record.injEq] at hrecord
    refine (count_update_cons s.dependsOn consumer provider a b).trans ?_
    change _ = s.links a b + count _ (update s.party t _)
    omega
  · intro a b ha
    exact (h.backward a b ha).trans (congrArg _ (count_stay (by simp [ht])).symm)
  · intro a b hb ha
    exact (h.dropped a b hb ha).trans_eq (count_stay (by simp [ht])).symm
  · exact h.alone

theorem Inv.record (ht : s.party t = .record consumer provider) :
    Inv (({ s with graph := none }.setDependents provider
      (consumer :: s.dependents provider)).setLinks consumer provider
        (s.links consumer provider + 1) |>.goto t .idle) := by
  have hholds : (s.party t).Holds := by
    rw [ht]
    trivial
  have hok := h.place t
  rw [ht] at hok
  obtain ⟨hc, hp⟩ := hok
  constructor
  · exact h.lock.leave hholds id
  · exact goto_place trivial fun u _ => h.place u
  · exact h.cleared
  · exact h.acyclic
  · intro a b ha
    have hrecord := count_goto s t .idle (.record a b)
    have hforward := h.forward a b ha
    simp only [ht, reduceCtorEq, if_false, Place.record.injEq] at hrecord
    refine Eq.trans ?_ (congrArg (· + _) (links_apply s consumer provider a b _).symm)
    change (s.dependsOn a).count b = _ + count _ (update s.party t _)
    split_ifs at hrecord ⊢ with hab
    · obtain ⟨rfl, rfl⟩ := hab
      omega
    · omega
  · intro a b ha
    have hbackward := h.backward a b ha
    refine (count_update_cons s.dependents provider consumer b a).trans ?_
    refine Eq.trans ?_ (congrArg₂ (· + ·) (links_apply s consumer provider a b _).symm
      (count_stay (f := s.party) (by simp [ht])).symm)
    simp only [and_comm]
    split_ifs with hab
    · obtain ⟨rfl, rfl⟩ := hab
      omega
    · omega
  · intro a b hb ha
    have hne : a ≠ consumer := by
      rintro rfl
      exact hc.early.1.not_dropped ha
    refine (count_update_cons s.dependents provider consumer b a).trans_le ?_
    rw [if_neg fun hab => hne hab.2.symm]
    exact (h.dropped a b hb ha).trans_eq (count_stay (by simp [ht])).symm
  · intro x hx
    have hne : x ≠ provider := by
      rintro rfl
      exact hp.early.2.2 hx
    exact (update_of_ne hne _ _).trans (h.alone x hx)

theorem Inv.remove (ht : s.party t = .idle) {n : ℕ} (hl : s.links consumer provider = n + 1) :
    Inv ((s.setDependsOn consumer ((s.dependsOn consumer).erase provider)).setLinks consumer provider n
      |>.goto t (.forget consumer provider)) := by
  have hsub := update_subset (f := s.dependsOn) (m := consumer) (List.erase_subset (a := provider))
  have hforget : ∀ a b, count (· = Place.forget a b)
      (update s.party t (.forget consumer provider)) =
        count (· = Place.forget a b) s.party + if consumer = a ∧ provider = b then 1 else 0 := by
    intro a b
    simpa [ht] using count_goto s t (.forget consumer provider) (.forget a b)
  constructor
  · exact h.lock.stay (by rw [ht]; exact Iff.rfl)
  · exact goto_place trivial fun u _ => (h.place u).mono (fun _ _ hx => hx) hsub
  · intro x hx
    have := hsub x
    rw [h.cleared x hx] at this
    exact List.subset_nil.mp this
  · exact h.acyclic.mono fun a b hb => hsub a hb
  · intro a b ha
    have hforward := h.forward a b ha
    refine (count_update_erase s.dependsOn consumer provider a b).trans ?_
    refine Eq.trans ?_ (congrArg₂ (· + ·) (links_apply s consumer provider a b _).symm
      (count_stay (f := s.party) (by simp [ht])).symm)
    split_ifs with hab
    · obtain ⟨rfl, rfl⟩ := hab
      omega
    · omega
  · intro a b ha
    have hbackward := h.backward a b ha
    refine Eq.trans hbackward ?_
    refine Eq.trans ?_ (congrArg₂ (· + ·) (links_apply s consumer provider a b _).symm
      (hforget a b).symm)
    split_ifs with hab
    · obtain ⟨rfl, rfl⟩ := hab
      omega
    · omega
  · intro a b hb ha
    refine (h.dropped a b hb ha).trans ?_
    exact (Nat.le_add_right _ _).trans_eq (hforget a b).symm
  · exact h.alone

theorem Inv.forget (ht : s.party t = .forget consumer provider) :
    Inv ((s.setDependents provider ((s.dependents provider).erase consumer)).goto t .idle) := by
  have hforget : ∀ a b, count (· = Place.forget a b) (update s.party t .idle) +
      (if provider = b ∧ consumer = a then 1 else 0) = count (· = Place.forget a b) s.party := by
    intro a b
    simpa [ht, and_comm] using count_goto s t .idle (.forget a b)
  constructor
  · exact h.lock.stay (by rw [ht]; exact Iff.rfl)
  · exact goto_place trivial fun u _ => h.place u
  · exact h.cleared
  · exact h.acyclic
  · intro a b ha
    exact (h.forward a b ha).trans (congrArg _ (count_stay (by simp [ht])).symm)
  · intro a b ha
    have hbackward := h.backward a b ha
    have hab := hforget a b
    refine (count_update_erase s.dependents provider consumer b a).trans ?_
    change _ = s.links a b + count _ (update s.party t _)
    omega
  · intro a b hb ha
    have hdropped := h.dropped a b hb ha
    have hab := hforget a b
    refine (count_update_erase s.dependents provider consumer b a).trans_le ?_
    change _ ≤ count _ (update s.party t _)
    omega
  · intro x hx
    have hnil := h.alone x hx
    obtain rfl | hne := eq_or_ne x provider
    · refine (update_self x _ _).trans ?_
      rw [hnil, List.erase_nil]
    · exact (update_of_ne hne _ _).trans hnil

omit [DecidableEq ι] in
theorem Inv.mem_next {x y : μ} (hy : y ∈ s.dependsOn x) : y ∈ s.next x := by
  unfold State.next
  split_ifs with hreg
  · exact List.mem_dedup.mpr hy
  · have hcleared : (s.phase x).Cleared := by
      cases hx : s.phase x with
      | absent | gone => trivial
      | _ => exact absurd (by rw [hx]; trivial) hreg
    rw [h.cleared x hcleared] at hy
    exact hy

theorem Inv.step (hstep : Step t s s') : Inv s' := by
  cases hstep with
  | add consumer provider hne ht hg =>
    refine h.goes ?_ (by simp [ht]) (by simp) trivial
    have hlock := h.lock
    rw [hg] at hlock
    exact hlock.enter trivial
  | noDevice ht hr =>
    refine h.goes (h.lock.leave (by rw [ht]; trivial) id) (by simp [ht]) (by simp) trivial
  | search ht hr =>
    refine h.goes (h.lock.stay (by rw [ht]; exact Iff.rfl)) (by simp [ht]) (by simp) ?_
    exact ⟨hr.1, hr.2, .inr (List.mem_singleton_self _), by simp, List.not_mem_nil⟩
  | deadlock ht => exact h.goes (h.lock.leave (by rw [ht]; trivial) id) (by simp [ht]) (by simp) trivial
  | @again consumer provider current seen queue ht hc hs =>
    have hok := h.place t
    rw [ht] at hok
    refine h.goes (h.lock.stay (by rw [ht]; exact Iff.rfl)) (by simp [ht]) (by simp) ?_
    exact ⟨hok.1, hok.2.1, hok.2.2.again hs⟩
  | @visit consumer provider current seen queue ht hc hs =>
    have hok := h.place t
    rw [ht] at hok
    refine h.goes (h.lock.stay (by rw [ht]; exact Iff.rfl)) (by simp [ht]) (by simp) ?_
    refine ⟨hok.1, hok.2.1, hok.2.2.visit hc fun y hy => ?_⟩
    exact List.mem_reverse.mpr (h.mem_next hy)
  | insert ht => exact h.insert ht
  | record ht => exact h.record ht
  | remove consumer provider hne ht hl => exact h.remove ht hl
  | forget ht => exact h.forget ht

end

end Steps
end Roanix.Driver.Graph
