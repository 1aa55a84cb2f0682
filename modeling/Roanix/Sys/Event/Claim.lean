import Roanix.Sys.Event.Act

/-! Claiming a group and waking its thread. -/
namespace Roanix.Sys.EventM
open Lib Function

attribute [local simp] State.put Local.woken Local.goto Local.claimed

variable {ε ι : Type} {l : Local ε ι} {i : ℕ}

theorem LocalOk.claimed (h : LocalOk l) (hl : l.place.Live) (hw : l.winner = none)
    (hi : i < l.events.length) : LocalOk (l.claimed i) := by
  have hgroup := h.group hl
  have hclaims := hgroup.claims
  have hwakes := hgroup.wakes
  rw [if_pos hw] at hclaims
  rw [hclaims] at hwakes
  refine ⟨fun _ => ⟨hgroup.index_le, ?_, ?_, hgroup.seq, hgroup.park, ?_⟩, ?_, h.ticket⟩
  · simp [hclaims]
  · exact hwakes.trans (Nat.zero_le _)
  · intro j hj
    obtain rfl : i = j := Option.some.inj hj
    exact hi
  · have hplace := h.place
    unfold Local.PlaceOk Local.claimed at *
    cases hp : l.place <;> simp_all

theorem LocalOk.woken (h : LocalOk l) (ho : l.Owed) (hself : l.place ≠ .wakeSelf)
    (hzero : l.place ≠ .wakeZero) : LocalOk l.woken := by
  obtain ⟨hl, hw, hwakes⟩ := ho
  have hgroup := h.group hl
  have hclaims := hgroup.claims
  rw [if_neg hw] at hclaims
  refine ⟨fun _ => { hgroup with wakes := ?_, park := ?_ }, ?_, h.ticket⟩
  · simp [hwakes, hclaims]
  · simp
  · have hplace := h.place
    unfold Local.PlaceOk Local.woken at *
    cases hp : l.place <;> simp_all

theorem Steady.same {l' : Local ε ι} {e : ε} {g : ℕ} (hp : l'.place = l.place)
    (he : l'.events = l.events) (hi : l'.index = l.index) (ht : l'.ticket = l.ticket)
    (hw : l'.winner = none → l.winner = none) : Steady e g l l' := by
  have hsec : l'.section? = l.section? := by
    unfold Local.section?
    rw [hp, he, hi]
  refine ⟨⟨?_, ?_, ?_, ?_, ?_, ?_⟩, ?_, ?_, ?_, ?_⟩
  · intro i
    unfold Local.Linked
    rw [hp, he, hi]
    exact id
  · rintro j ⟨hl, hwin, hj, hev⟩
    rw [hp] at hl
    rw [hi] at hj
    rw [he] at hev
    exact ⟨hl, hw hwin, hj, hev⟩
  · intro hu _
    exact ⟨hp ▸ hu, he, hi⟩
  · intro _ _ hj
    exact hi ▸ hj
  · rw [hp]
  · rw [hp]
    exact id
  · rw [hsec]
  · rw [hp]
    exact id
  · rw [hp]
    exact id
  · rintro ⟨hc, hwin, hev, n, hn, hne⟩
    exact ⟨hp ▸ hc, hw hwin, he ▸ hev, n, ht ▸ hn, hne⟩

theorem Steady.trans {l' l'' : Local ε ι} {e : ε} {g : ℕ} (h : Steady e g l l')
    (h' : Steady e g l' l'') : Steady e g l l'' where
  section_iff := h.section_iff.trans h'.section_iff
  linked i hi := h'.linked i (h.linked i hi)
  unclaimed i hi := h.unclaimed i (h'.unclaimed i hi)
  undo hu hev := by
    obtain ⟨hu', he', hi'⟩ := h'.undo hu hev
    rw [he', hi'] at hev
    obtain ⟨hu, he, hi⟩ := h.undo hu' hev
    exact ⟨hu, he'.trans he, hi'.trans hi⟩
  index i hl hi := h.index i hl (h'.index i (h.linked i hl) hi)
  trying := h.trying.trans h'.trying
  claiming := h'.claiming ∘ h.claiming
  claimsAll := h'.claimsAll ∘ h.claimsAll
  notifies := h'.notifies ∘ h.notifies
  overdue := h.overdue ∘ h'.overdue

variable [DecidableEq ι] {waker : ι → Option ι} {party : ι → Local ε ι} {t w : ι}

omit [DecidableEq ι] in
theorem PartyOk.waker_eq_none (h : PartyOk waker party) (hw : (party w).winner = none) :
    waker w = none := by
  by_contra hne
  exact ((h.owed w).mp hne).2.1 hw

theorem PartyOk.exchange {lw lt : Local ε ι} {x : Option ι} (h : PartyOk waker party)
    (hwas : ∀ u, waker w = some u → u = t) (hx : ∀ u, x = some u → u = t)
    (hown : w = t → lw = lt) (hplace : w ≠ t → lw.place = (party w).place)
    (hokw : LocalOk lw) (hokt : LocalOk lt) (hseqw : lw.seq = (party w).seq)
    (hseqt : lt.seq = (party t).seq) (howed : x ≠ none ↔ lw.Owed)
    (hself : t ≠ w → ((party t).Owed ↔ lt.Owed))
    (hmine : ∀ y, y ∈ lt.owes t ↔ if y = w then x = some t else y ∈ (party t).owes t)
    (honce : (lt.owes t).Nodup)
    (htarget : ∀ v seq batch, lt.place = .wake v seq batch → seq = (party v).seq) :
    PartyOk (update waker w x) (update (update party w lw) t lt) := by
  generalize hparty : update (update party w lw) t lt = party'
  have hmover : party' t = lt := by rw [← hparty, update_self]
  have hwaiter : party' w = lw := by
    by_cases hwt : w = t
    · rw [hwt, hmover, hown hwt]
    · rw [← hparty, update_of_ne hwt, update_self]
  have hother : ∀ u, u ≠ t → u ≠ w → party' u = party u := by
    intro u hut huw
    rw [← hparty, update_of_ne hut, update_of_ne huw]
  have hplaces : ∀ u, u ≠ t → (party' u).place = (party u).place := by
    intro u hut
    by_cases huw : u = w
    · rw [huw, hwaiter, hplace (huw ▸ hut)]
    · rw [hother u hut huw]
  have howes : ∀ u, u ≠ t → (party' u).owes u = (party u).owes u := by
    intro u hut
    unfold Local.owes
    rw [hplaces u hut]
  have hseq : ∀ u, (party' u).seq = (party u).seq := by
    intro u
    by_cases hut : u = t
    · rw [hut, hmover, hseqt]
    · by_cases huw : u = w
      · rw [huw, hwaiter, hseqw]
      · rw [hother u hut huw]
  constructor
  · intro u
    by_cases hut : u = t
    · rwa [hut, hmover]
    · by_cases huw : u = w
      · rwa [huw, hwaiter]
      · rw [hother u hut huw]
        exact h.each u
  · intro u y
    by_cases hut : u = t
    · subst hut
      rw [hmover, hmine]
      by_cases hyw : y = w
      · simp [hyw]
      · simp [hyw, h.owes]
    · rw [howes u hut, h.owes]
      by_cases hyw : y = w
      · subst hyw
        rw [update_self]
        exact iff_of_false (fun hs => hut (hwas u hs)) fun hs => hut (hx u hs)
      · rw [update_of_ne hyw]
  · intro u
    by_cases hut : u = t
    · rwa [hut, hmover]
    · rw [howes u hut]
      exact h.once u
  · intro y
    by_cases hyw : y = w
    · rw [hyw, update_self, hwaiter]
      exact howed
    · rw [update_of_ne hyw, h.owed]
      by_cases hyt : y = t
      · rw [hyt, hmover]
        exact hself (hyt ▸ hyw)
      · rw [hother y hyt hyw]
  · intro u v seq batch hu
    rw [hseq]
    by_cases hut : u = t
    · rw [hut, hmover] at hu
      exact htarget v seq batch hu
    · rw [hplaces u hut] at hu
      exact h.target u v seq batch hu

section Self
variable {s : State ε ι} {b : Place ε ι}

theorem Inv.claimOwn (h : Inv waker s) (hw : (s.party t).winner = none)
    (hi : i < (s.party t).events.length)
    (hp : (s.party t).place = .claimSelf ∧ b = .wakeSelf ∨
      (s.party t).place = .claimZero ∧ b = .wakeZero) :
    Inv (update waker t (some t)) (s.put t { (s.party t).claimed i with
      claimedLocally := true, place := b }) := by
  have hlive : (s.party t).place.Live := by
    obtain ⟨hp, -⟩ | ⟨hp, -⟩ := hp <;> rw [hp] <;> trivial
  have hok := (h.party.each t).claimed hlive hw hi
  have hgroup := hok.group hlive
  have hplace := (h.party.each t).place
  unfold Local.PlaceOk at hplace
  have hwakes : (s.party t).wakes = 0 := by
    by_contra hne
    exact ((h.party.each t).group hlive).winner_ne_none hne hw
  have hnext : LocalOk { (s.party t).claimed i with claimedLocally := true, place := b } := by
    refine ⟨fun _ => { hgroup with }, ?_, hok.ticket⟩
    obtain ⟨hp, rfl⟩ | ⟨hp, rfl⟩ := hp <;> rw [hp] at hplace
    · exact ⟨by simp, hwakes, hplace.2.2⟩
    · exact ⟨by simp, hwakes, hplace.2.2.1⟩
  have hlive' : b.Live := by
    obtain ⟨-, rfl⟩ | ⟨-, rfl⟩ := hp <;> trivial
  constructor
  · have hfree := h.party.waker_eq_none hw
    have hnext' := h.party.exchange (w := t) (t := t) (x := some t) (by simp [hfree]) (by simp)
      (fun _ => rfl) (fun hne => absurd rfl hne) hnext hnext rfl rfl
      (by simp [Local.Owed, hlive', hwakes]) (fun hne => absurd rfl hne) ?_ ?_ ?_
    · rwa [update_idem] at hnext'
    all_goals obtain ⟨hp, rfl⟩ | ⟨hp, rfl⟩ := hp <;> simp [Local.owes, hp]
  · intro e
    apply (h.event e).steady
    have hsame : Steady e (s.event e).generation (s.party t)
        { (s.party t).claimed i with claimedLocally := true } := by
      apply Steady.same <;> simp
    refine hsame.trans (Steady.goto hlive ?_ ?_ ?_ ?_ ?_) <;>
      obtain ⟨hp, rfl⟩ | ⟨hp, rfl⟩ := hp <;>
      simp [hp, Local.section?, Local.Overdue, Place.Live, Place.Keeps]

theorem Inv.wakeOwn (h : Inv waker s)
    (hp : (s.party t).place = .wakeSelf ∧ b = .condition ∨
      (s.party t).place = .wakeZero ∧ b = .decide) :
    Inv (update waker t none) (s.put t ((s.party t).woken.goto b)) := by
  have hlive : (s.party t).place.Live := by
    obtain ⟨hp, -⟩ | ⟨hp, -⟩ := hp <;> rw [hp] <;> trivial
  have hok := h.party.each t
  have hgroup := hok.group hlive
  have hplace := hok.place
  unfold Local.PlaceOk at hplace
  have hself : (s.party t).winner ≠ none ∧ (s.party t).wakes = 0 := by
    obtain ⟨hp, -⟩ | ⟨hp, -⟩ := hp <;> rw [hp] at hplace <;> exact ⟨hplace.1, hplace.2.1⟩
  obtain ⟨hwinner, hwakes⟩ := hself
  have hclaims := hgroup.claims
  rw [if_neg hwinner] at hclaims
  have hnext : LocalOk ((s.party t).woken.goto b) := by
    refine ⟨fun _ => { hgroup with wakes := ?_, park := ?_ }, ?_,
      hok.ticket⟩
    · simp [hwakes, hclaims]
    · simp
    · obtain ⟨-, rfl⟩ | ⟨-, rfl⟩ := hp <;>
        simp [Local.PlaceOk, hwinner, hwakes]
  constructor
  · have hwaker : waker t = some t := by
      apply (h.party.owes t t).mp
      obtain ⟨hp, -⟩ | ⟨hp, -⟩ := hp <;> simp [Local.owes, hp]
    have hnext' := h.party.exchange (w := t) (t := t) (x := none) (by simp [hwaker])
      (fun u hu => by cases hu) (fun _ => rfl) (fun hne => absurd rfl hne) hnext hnext rfl rfl
      (by simp [Local.Owed]) (fun hne => absurd rfl hne) ?_ ?_ ?_
    · rwa [update_idem] at hnext'
    all_goals obtain ⟨hp, rfl⟩ | ⟨hp, rfl⟩ := hp <;> simp [Local.owes, hp]
  · intro e
    apply (h.event e).steady
    have hsame : Steady e (s.event e).generation (s.party t) (s.party t).woken := by
      apply Steady.same <;> simp
    refine hsame.trans (Steady.goto hlive ?_ ?_ ?_ ?_ ?_) <;>
      obtain ⟨hp, rfl⟩ | ⟨hp, rfl⟩ := hp <;>
      simp [hp, hwinner, Local.section?, Local.Overdue, Place.Live, Place.Keeps]

end Self

end Roanix.Sys.EventM
