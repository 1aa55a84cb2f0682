import Roanix.Sys.Event.Invariant

/-! Steps of a thread that change nothing but what belongs to it. -/
namespace Roanix.Sys.EventM
open Lib Local

attribute [local simp] Local.goto Place.Live Local.preparePark Place.Keeps Place.Notifies Local.wait
  Place.Checked Local.Owed

variable {ε ι : Type} [DecidableEq ε] {s : State ε ι} {l l' : Local ε ι} {b : Place ε ι}

section
omit [DecidableEq ε]

theorem LocalOk.goto (h : LocalOk l) (hl : l.place.Live) (hb : (l.goto b).PlaceOk) :
    LocalOk (l.goto b) := by
  have hg := h.group hl
  exact ⟨fun _ => { hg with }, hb, h.ticket⟩

theorem LocalOk.away (h : LocalOk l) (hb : ¬ b.Live) : LocalOk (l.goto b) := by
  refine ⟨fun hlive => absurd hlive hb, ?_, h.ticket⟩
  unfold Local.PlaceOk Local.goto
  cases b <;> simp_all [Place.Live]

theorem GroupOk.wakes_eq_one (h : GroupOk l) (hidle : l.parkState = .idle) : l.wakes = 1 := by
  have hne : l.wakes ≠ 0 := fun hzero => h.park.mp hzero hidle
  have hle := h.wakes
  rw [h.claims] at hle
  split_ifs at hle <;> omega

theorem GroupOk.winner_ne_none (h : GroupOk l) (hw : l.wakes ≠ 0) : l.winner ≠ none := by
  intro hn
  have hle := h.wakes
  rw [h.claims, if_pos hn] at hle
  omega

theorem LocalOk.leaving (h : LocalOk l) (hp : l.place = .finish ∨ ∃ i, l.place = .unregister i) :
    l.place.Live ∧ l.wakes = 1 ∧ l.winner ≠ none := by
  have hplace := h.place
  unfold Local.PlaceOk at hplace
  have hwakes : l.place.Live ∧ l.wakes = 1 := by
    obtain hp | ⟨i, hp⟩ := hp <;> rw [hp] at hplace ⊢ <;> exact ⟨trivial, hplace⟩
  exact ⟨hwakes.1, hwakes.2, (h.group hwakes.1).winner_ne_none (by simp [hwakes.2])⟩

end

theorem LocalOk.goes (h : LocalOk l) (hg : Goes s l l') : LocalOk l' := by
  have hplace := h.place
  unfold Local.PlaceOk at hplace
  cases hg with
  | observe e hp => 
    refine ⟨?_, ?_, h.ticket⟩
    · simp [hp]
    · simp [Local.PlaceOk, hp]
  | wakeAll e hp => exact h.away id
  | wakeOne e hp =>
    split_ifs
    · exact h.away id
    · exact h
  | wait e hp | waitAny events hp hne => exact ⟨fun h => h.elim, trivial, fun h => absurd rfl h⟩
  | waitTicket e hp => exact ⟨fun h => h.elim, trivial, fun _ => rfl⟩
  | observeChanged hp _ _ _ => exact h.away id
  | observeSame hp _ _ _ => exact h.away id
  | checkSignaled hp _ _ | checkClear hp _ _ | checkAgain hp _ | checkDone hp _ => exact h.away id
  | prepare hp =>
    refine ⟨fun _ => ⟨?_, ?_, ?_, ?_, ?_, ?_⟩, ?_, h.ticket⟩ <;>
      simp [Local.PlaceOk]
  | returns hp _ | readGroup hp | batchDone hp => exact h.away id
  | parks hp hq hw =>
    have hgroup := h.group (by rw [hp]; trivial)
    rw [hp] at hplace
    obtain ⟨hloop, hclaimed, -⟩ := hplace
    refine ⟨fun _ => { hgroup with park := ?_ },
      ⟨hloop, hclaimed, by simp⟩, h.ticket⟩
    have hpark := hgroup.park
    simpa [hw] using hpark
  | allocate hp | loadClear hp _ _ | conditionNone hp _ | conditionTrue hp _ _ _
  | unregistered hp _ =>
    rw [hp] at hplace
    exact h.goto (by rw [hp]; trivial) hplace
  | loopDone hp hi =>
    have hle := (h.group (by rw [hp]; trivial)).index_le
    rw [hp] at hplace
    refine h.goto (by rw [hp]; trivial) ⟨fun _ => le_antisymm hle hi, ?_, hplace.2⟩
    simp [hplace.1]
  | winnerSeen hp hw =>
    rw [hp] at hplace
    refine h.goto (by rw [hp]; trivial) ⟨fun h => absurd h hw, ?_, hplace.2⟩
    simp [hplace.1]
  | winnerNone hp hi _ =>
    rw [hp] at hplace
    exact h.goto (by rw [hp]; trivial) ⟨hi, hplace⟩
  | claimSelfFails hp hw =>
    rw [hp] at hplace
    refine h.goto (by rw [hp]; trivial) ⟨fun h => absurd h hw, ?_, hplace.2.2⟩
    simp [hplace.2.1]
  | conditionFalse hp _ ht _ =>
    rw [hp] at hplace
    exact h.goto (by rw [hp]; trivial)
      ⟨hplace.1, hplace.2.1, hplace.2.2, by simp [ht]⟩
  | claimZeroFails hp _ =>
    rw [hp] at hplace
    exact h.goto (by rw [hp]; trivial) ⟨hplace.1, hplace.2.1, hplace.2.2.1⟩
  | decideReturn hp hc =>
    rw [hp] at hplace
    exact h.goto (by rw [hp]; trivial) (hplace.2.1 hc)
  | decidePark hp hc =>
    rw [hp] at hplace
    exact h.goto (by rw [hp]; trivial) ⟨hplace.1, hc, hplace.2.2⟩
  | parkFails hp hfail =>
    have hgroup := h.group (by rw [hp]; trivial)
    rw [hp] at hplace
    refine h.goto (by rw [hp]; trivial) (hgroup.wakes_eq_one ?_)
    cases hs : l.parkState <;> simp_all [hgroup.seq]
  | resumes hp hidle =>
    have hgroup := h.group (by rw [hp]; trivial)
    exact h.goto (by rw [hp]; trivial) (hgroup.wakes_eq_one hidle)

section Steady
variable {e : ε} {g : ℕ}

omit [DecidableEq ε]

theorem Place.Live.not_notifies {p : Place ε ι} (h : p.Live) : ¬ p.Notifies e := by
  cases p <;> simp_all [Place.Live, Place.Notifies]

theorem Place.ClaimsAll.notifies {p : Place ε ι} (h : p.ClaimsAll e) : p.Notifies e := by
  cases p <;> simp_all [Place.ClaimsAll, Place.Notifies]

theorem Place.Trying.claiming {p : Place ε ι} (h : p.Trying e) : p.Claiming e := by
  cases p <;> simp_all [Place.Trying, Place.Claiming]

theorem section_of_claiming (h : l.place.Claiming e) : l.section? = some e := by
  unfold section?
  cases hp : l.place <;> simp_all [Place.Claiming]

theorem Place.Live.not_claiming {p : Place ε ι} (h : p.Live) : ¬ p.Claiming e := by
  cases p <;> simp_all [Place.Live, Place.Claiming]

theorem Calm.away (hl : ¬ l.place.Live) (hl' : ¬ l'.place.Live)
    (htry : l.place.Trying e ↔ l'.place.Trying e)
    (hclaim : l.place.Claiming e → l'.place.Claiming e) : Calm e l l' where
  linked i hi := absurd hi.1 hl
  unclaimed i hi := absurd hi.1 hl'
  undo hu _ := by
    rw [hu] at hl'
    exact absurd trivial hl'
  index i hi := absurd hi.1 hl
  trying := htry
  claiming := hclaim

theorem Steady.away (hl : ¬ l.place.Live) (hl' : ¬ l'.place.Live) (hs : l.section? ≠ some e)
    (hs' : l'.section? ≠ some e) (hn : ¬ l.place.Notifies e) : Steady e g l l' := by
  have hcalm : Calm e l l' := by
    apply Calm.away hl hl'
    · exact ⟨fun ht => absurd (section_of_claiming ht.claiming) hs,
        fun ht => absurd (section_of_claiming ht.claiming) hs'⟩
    · exact fun hc => absurd (section_of_claiming hc) hs
  refine ⟨hcalm, ?_, fun hc => absurd hc.notifies hn, fun hc => absurd hc hn, ?_⟩
  · simp [hs, hs']
  · intro ho
    refine absurd ?_ hl'
    have hchecked := ho.1
    cases hp : l'.place <;> simp_all [Place.Checked, Place.Live]

section
variable (hl : l.place.Live) (hb : b.Live)
  (hkeep : ∀ i, l.events[i]? = some e → l.place.Keeps i → b.Keeps i)
  (hundo : l.place = .undo ∨ b = .undo → l.events[l.index]? ≠ some e)
include hl hb hkeep hundo

theorem Calm.goto : Calm e l (l.goto b) where
  linked := by
    rintro i ⟨-, hi, hlt | ⟨hu, rfl⟩, hk⟩
    · exact ⟨hb, hi, .inl hlt, hkeep i hi hk⟩
    · exact absurd hi (hundo (.inl hu))
  unclaimed := by
    rintro i ⟨-, hw, hlt, hi⟩
    exact ⟨hl, hw, hlt, hi⟩
  undo hu he := absurd he (hundo (.inr hu))
  index _ _ hi := hi
  trying := ⟨fun h => absurd h.claiming hl.not_claiming, fun h => absurd h.claiming hb.not_claiming⟩
  claiming h := absurd h hl.not_claiming

theorem Steady.goto (hs : l.section? = some e ↔ (l.goto b).section? = some e)
    (hover : (l.goto b).Overdue e g → l.place.Checked) : Steady e g l (l.goto b) :=
  { Calm.goto hl hb hkeep hundo with
    section_iff := hs
    claimsAll := fun h => absurd h.notifies hl.not_notifies
    notifies := fun h => absurd h hl.not_notifies
    overdue := fun ho => ⟨hover ho, ho.2⟩ }

end

theorem Steady.done (hl : l.place.Live) (hs : l.section? = none) (hno : ∀ i, ¬ l.Linked e i)
    (hw : l.winner ≠ none) (hb : b = .finish ∨ b = .idle) : Steady e g l (l.goto b) where
  section_iff := by
    rw [hs]
    obtain rfl | rfl := hb <;> simp [section?]
  linked i hi := absurd hi (hno i)
  unclaimed i hi := absurd hi.2.1 hw
  undo := by
    obtain rfl | rfl := hb <;> intro hu <;> cases hu
  index i hi := absurd hi (hno i)
  trying := by
    refine ⟨fun h => absurd h.claiming hl.not_claiming, ?_⟩
    obtain rfl | rfl := hb <;> exact fun h => h.elim
  claiming h := absurd h hl.not_claiming
  claimsAll h := absurd h.notifies hl.not_notifies
  notifies h := absurd h hl.not_notifies
  overdue ho := absurd ho.2.1 hw

end Steady

theorem LocalOk.steady (h : LocalOk l) (hg : Goes s l l') (e : ε) :
    Steady e (s.event e).generation l l' := by
  cases hg with
  | wakeOne f hp =>
    split_ifs <;> apply Steady.away <;>
      simp [hp, section?]
  | observe _ hp | wakeAll _ hp | wait _ hp | waitAny _ hp | waitTicket _ hp | observeChanged hp
  | observeSame hp | checkSignaled hp | checkClear hp | checkAgain hp | checkDone hp
  | readGroup hp | batchDone hp =>
    apply Steady.away <;>
      simp [hp, section?]
  | prepare hp =>
    have hcalm : Calm e l l.preparePark := by
      constructor <;> simp [hp, Local.Linked, Local.Unclaimed, Place.Trying, Place.Claiming]
    refine ⟨hcalm, ?_, ?_, ?_, ?_⟩ <;>
      simp [hp, section?, Local.Overdue, Place.ClaimsAll]
  | conditionNone hp ht =>
    apply Steady.goto <;> simp [hp, ht, section?, Local.Overdue]
  | conditionTrue hp he ht hgen =>
    apply Steady.goto <;> simp [hp, section?]
    -- the ticket has just been compared
    rintro ⟨-, -, hevents, m, hm, hne⟩
    obtain rfl : m = _ := Option.mem_unique hm ht
    obtain rfl : _ = e := List.head_eq_of_cons_eq (he.symm.trans hevents)
    exact absurd hgen hne
  | claimZeroFails hp hw =>
    apply Steady.goto <;> simp [hp, hw, section?, Local.Overdue]
  | parks hp _ _ =>
    have hsteady : Steady e (s.event e).generation l (l.goto .asleep) := by
      apply Steady.goto <;> simp [hp, section?]
    exact ⟨{ hsteady with }, hsteady.section_iff, hsteady.claimsAll, hsteady.notifies,
      hsteady.overdue⟩
  | unregistered hp hi =>
    obtain ⟨hlive, -, hw⟩ := h.leaving (.inr ⟨_, hp⟩)
    apply Steady.done hlive (by simp [section?, hp]) _ hw (.inl rfl)
    · rintro j ⟨-, hj, -, hk⟩
      rw [hp] at hk
      have := (List.getElem?_eq_some_iff.mp hj).1
      simp only [Place.Keeps] at hk
      omega
  | returns hp hw =>
    apply Steady.done (h.leaving (.inl hp)).1 (by simp [section?, hp]) _ hw (.inr rfl)
    rintro j ⟨-, -, -, hk⟩
    rw [hp] at hk
    exact hk
  | allocate hp | loopDone hp | winnerSeen hp | winnerNone hp | loadClear hp | claimSelfFails hp
  | conditionFalse hp | decideReturn hp | decidePark hp | parkFails hp | resumes hp =>
    apply Steady.goto <;> simp [hp, section?, Local.Overdue]

theorem LocalOk.owes_owed (h : LocalOk l) (hg : Goes s l l') :
    (∀ u, l'.owes u = l.owes u) ∧ (l.Owed ↔ l'.Owed) := by
  cases hg with
  | wakeOne f hp => split_ifs <;> simp [hp, owes]
  | returns hp _ =>
    simp [hp, (h.leaving (.inl hp)).2.1, owes]
  | observe _ hp | wakeAll _ hp | wait _ hp | waitAny _ hp | waitTicket _ hp | observeChanged hp
  | observeSame hp | checkSignaled hp | checkClear hp | checkAgain hp | checkDone hp | prepare hp
  | allocate hp | loopDone hp | winnerSeen hp | winnerNone hp | loadClear hp | claimSelfFails hp
  | conditionNone hp | conditionTrue hp | conditionFalse hp | claimZeroFails hp | decideReturn hp
  | decidePark hp | parkFails hp | parks hp | resumes hp | unregistered hp | readGroup hp
  | batchDone hp =>
    simp [hp, owes]

section
variable (hg : Goes s l l')
include hg

theorem Goes.seq_eq (hl : l.Owed) : l'.seq = l.seq := by
  cases hg with
  | prepare hp =>
    have hlive := hl.1
    rw [hp] at hlive
    exact hlive.elim
  | wakeOne f hp => split_ifs <;> rfl
  | _ => rfl

theorem Goes.target (hl : ∀ w seq batch, l.place ≠ .wake w seq batch) {w : ι} {seq : ℕ}
    {batch : List ι} (hw : l'.place = .wake w seq batch) : seq = (s.party w).seq := by
  cases hg with
  | readGroup hp =>
    obtain ⟨rfl, rfl, -⟩ := Place.wake.inj hw
    rfl
  | wakeOne f hp =>
    split_ifs at hw
    · cases hw
    · exact absurd hw (hl w seq batch)
  | observe _ hp => exact absurd hw (hl w seq batch)
  | _ => cases hw

theorem Goes.place_ne_wake (w : ι) (seq : ℕ) (batch : List ι) : l.place ≠ .wake w seq batch := by
  cases hg <;> simp_all

end

variable [DecidableEq ι] {waker : ι → Option ι} {t : ι}

theorem Inv.own (h : Inv waker s) (hg : Goes s (s.party t) l) : Inv waker (s.put t l) := by
  have hok := h.party.each t
  obtain ⟨howes, howed⟩ := hok.owes_owed hg
  constructor
  · apply h.party.stay (hok.goes hg) (howes t) howed hg.seq_eq
    intro w seq batch hw
    exact hg.target hg.place_ne_wake hw
  · intro e
    exact (h.event e).steady (hok.steady hg e)

end Roanix.Sys.EventM
