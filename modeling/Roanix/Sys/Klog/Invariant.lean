import Roanix.Sys.Klog.Basic

/-! What holds of the ring while no thread is overtaken by a whole lap. -/
namespace Roanix.Sys.Klog
open Function List Place

variable {r' : Ring} {busy : ℕ → Prop} {before p q : ℕ} {b : Place} {returned : Bool} {slot : Slot}
  {record : RecordData} {c : Cell} {copied : Cells}

theorem clampEnd_le (bytes : List ℕ) (n : ℕ) : clampEnd bytes n ≤ n := by
  induction n with
  | zero => exact Nat.le_refl 0
  | succ n ih =>
    unfold clampEnd
    split_ifs <;> omega

theorem length_clamp_le (bytes : List ℕ) (limit : ℕ) : (clamp bytes limit).length ≤ limit := by
  unfold clamp
  split_ifs with h
  · exact h
  · rw [length_take]
    have := clampEnd_le bytes limit
    omega

/-- A slot has the bytes and the header of a record. -/
def Holds (cells : Cells) (r : RecordData) (sequence : ℕ) : Prop :=
  ∀ w ∈ writes r sequence, cells w.1 = w.2

theorem nodup_writes (r : RecordData) (sequence : ℕ) :
    ((writes r sequence).map (·.1)).Nodup := by
  have hcells : (writes r sequence).map (·.1) =
      (range r.payload.length).map .byte ++ fields.map .field := by
    unfold writes
    rw [range_eq_range', ← zipIdx_map_snd, map_append, map_map, map_map,
      map_map]
    rfl
  rw [hcells, nodup_append]
  refine ⟨?_, ?_, ?_⟩
  · exact nodup_range.map fun i j h => Cell.byte.inj h
  · decide
  · simp

section Holds
variable {cells : Cells} {r : RecordData} {sequence : ℕ}

theorem mem_fields (f : Field) : f ∈ fields := by
  cases f <;> decide

theorem Holds.field (h : Holds cells r sequence) (f : Field) :
    cells (.field f) = r.header sequence f :=
  h (.field f, r.header sequence f)
    (mem_append_right _ (mem_map.mpr ⟨f, mem_fields f, rfl⟩))

theorem Holds.byte (h : Holds cells r sequence) {i : ℕ} (hi : i < r.payload.length) :
    cells (.byte i) = r.payload[i] := by
  refine h (.byte i, r.payload[i]) (mem_append_left _ (mem_map.mpr ⟨(r.payload[i], i), ?_, rfl⟩))
  rw [mk_mem_zipIdx_iff_getElem?]
  exact getElem?_eq_getElem hi

theorem Holds.deliver (h : Holds cells r sequence) :
    deliver cells = .ready (r.header sequence) r.payload := by
  have hs : r.storedSubsystem.length ≤ subsystemLimit := length_clamp_le _ _
  have hf : r.storedFile.length ≤ fileLimit := length_clamp_le _ _
  have hm : r.storedMessage.length ≤
      payloadCapacity - r.storedSubsystem.length - r.storedFile.length := length_clamp_le _ _
  have hlen : r.payload.length =
      r.storedSubsystem.length + r.storedFile.length + r.storedMessage.length := by
    simp only [RecordData.payload, length_append]
  have hsub : min (cells (.field .subsystemLen)) payloadCapacity = r.storedSubsystem.length := by
    rw [h.field]
    exact Nat.min_eq_left (hs.trans (by decide))
  have hfile : min (cells (.field .fileLen)) (payloadCapacity - r.storedSubsystem.length) =
      r.storedFile.length := by
    rw [h.field]
    simp only [RecordData.header, subsystemLimit, fileLimit, payloadCapacity] at *
    omega
  have hmsg : min (cells (.field .messageLen))
      (payloadCapacity - r.storedSubsystem.length - r.storedFile.length) =
      r.storedMessage.length := by
    rw [h.field]
    exact Nat.min_eq_left hm
  unfold Klog.deliver
  simp only [hsub, hfile, hmsg]
  congr 1
  · funext f
    cases f <;> first | exact h.field _ | (simp only [RecordData.header]; try omega)
  · apply ext_getElem
    · simp [hlen]
    · intro i hi hi'
      simp only [getElem_map, getElem_range]
      exact h.byte hi'

end Holds

theorem deliver_congr {a b : Cells} (h : ∀ c ∈ reads, a c = b c) : deliver a = deliver b := by
  have hfield (f : Field) : a (.field f) = b (.field f) :=
    h _ (mem_append_left _ (mem_map.mpr ⟨f, mem_fields f, rfl⟩))
  have hbyte (i : ℕ) (hi : i < payloadCapacity) : a (.byte i) = b (.byte i) :=
    h _ (mem_append_right _ (mem_map.mpr ⟨i, mem_range.mpr hi, rfl⟩))
  unfold deliver
  simp only [hfield]
  congr 1
  apply map_congr_left
  intro i hi
  rw [mem_range] at hi
  exact hbyte i (by omega)

def PlaceOk (r : Ring) : Place → Prop
  | .idle => True
  | .reserve q record => r.records q = some record ∧ (r.slot q).word ≤ q * 2
  | .write q record todo => r.records q = some record ∧ (r.slot q).word = q * 2 ∧
      ∃ done, writes record q = done ++ todo ∧ ∀ w ∈ done, (r.slot q).cells w.1 = w.2
  | .load q returned => returned = true → q ∈ r.returned
  | .copy q returned before todo copied => (returned = true → q ∈ r.returned) ∧
      before = q * 2 + 1 ∧ before ≤ (r.slot q).word ∧
      ∃ done, reads = done ++ todo ∧
        ((r.slot q).word = before → ∀ c ∈ done, copied c = (r.slot q).cells c)
  | .lose q returned => returned = true → q ∈ r.returned ∧ q + ringSlots < r.next

/-- A slot goes on to a later word, or it stays. -/
def Slot.Advances (a b : Slot) : Prop :=
  a = b ∨ a.word ≤ b.word ∧ (b.word % 2 = 1 → a.word < b.word)

/-- What a step of one thread does to the ring, as the others see it. -/
structure Ring.Advances (r r' : Ring) : Prop where
  next : r.next ≤ r'.next
  slots : ∀ k, (r.slots k).Advances (r'.slots k)
  records : ∀ q record, r.records q = some record → r'.records q = some record
  returned : ∀ q ∈ r.returned, q ∈ r'.returned

theorem Ring.Advances.refl (r : Ring) : r.Advances r :=
  ⟨le_rfl, fun _ => .inl rfl, fun _ _ => id, fun _ => id⟩

theorem PlaceOk.advance {r : Ring} {p : Place} (h : PlaceOk r p) (hr : r.Advances r')
    (hown : ∀ q, p.appends = some q → r'.slot q = r.slot q) : PlaceOk r' p := by
  cases p with
  | idle => trivial
  | reserve q record =>
    obtain ⟨hrecord, hword⟩ := h
    refine ⟨hr.records q record hrecord, ?_⟩
    rw [hown q rfl]
    exact hword
  | write q record todo =>
    obtain ⟨hrecord, hwritten⟩ := h
    refine ⟨hr.records q record hrecord, ?_⟩
    rw [hown q rfl]
    exact hwritten
  | load q returned => exact fun hb => hr.returned q (h hb)
  | copy q returned before todo copied =>
    obtain ⟨hret, hbefore, hle, done, hreads, hagree⟩ := h
    refine ⟨fun hb => hr.returned q (hret hb), hbefore, ?_⟩
    obtain heq | ⟨hword, hodd⟩ := hr.slots (slotOf q)
    · rw [show r'.slot q = r.slot q from heq.symm]
      exact ⟨hle, done, hreads, hagree⟩
    · refine ⟨hle.trans hword, done, hreads, fun hsame => ?_⟩
      have hlt : (r.slot q).word < (r'.slot q).word := hodd (by
        rw [show (r'.slots (slotOf q)).word = before from hsame]
        omega)
      omega
  | lose q returned =>
    intro hb
    obtain ⟨hmem, hlt⟩ := h hb
    have := hr.next
    exact ⟨hr.returned q hmem, by omega⟩

def Busy {ι : Type} (party : ι → Place) (q : ℕ) : Prop := ∃ t, (party t).appends = some q

structure RingOk (r : Ring) (busy : ℕ → Prop) : Prop where
  next_lt : r.next < 2 ^ 63
  /-- A sequence that is being appended is the last one of its slot. -/
  last : ∀ q, busy q → q < r.next ∧ r.next ≤ q + ringSlots
  unclaimed : ∀ q, r.next ≤ q → r.records q = none
  returned : ∀ q ∈ r.returned, q < r.next ∧ ¬ busy q
  words : ∀ k, (r.slots k).word = 0 ∨ (r.slots k).word < r.next * 2
  /-- A committed slot has the record of its word. -/
  committed : ∀ k, (r.slots k).word % 2 = 1 → ∃ q record, (r.slots k).word = q * 2 + 1 ∧
    slotOf q = k ∧ q ∈ r.returned ∧ r.records q = some record ∧ Holds (r.slots k).cells record q
  /-- The last sequence of a slot is committed unless it is being appended. -/
  settled : ∀ q < r.next, r.next ≤ q + ringSlots → ¬ busy q → (r.slot q).word = q * 2 + 1

/-- What a fetch that returned has to show for it. -/
def EventOk (r : Ring) (e : Event) : Prop :=
  (∀ header payload, e.result = .ready header payload → e.sequence ∈ r.returned ∧
    ∃ record, r.records e.sequence = some record ∧ header = record.header e.sequence ∧
      payload = record.payload) ∧
  (e.returned = true → e.next ≤ e.sequence + ringSlots →
    ∃ header payload, e.result = .ready header payload)

variable {ι : Type}

structure Inv (s : State ι) : Prop where
  ring : RingOk s.ring (Busy s.party)
  sole : ∀ t u q, (s.party t).appends = some q → (s.party u).appends = some q → t = u
  places : ∀ t, PlaceOk s.ring (s.party t)
  fetched : ∀ e ∈ s.fetched, EventOk s.ring e

theorem RingOk.slotOf_ne {r : Ring} (h : RingOk r busy) (hq : busy q)
    (hp : p < r.next ∧ r.next ≤ p + ringSlots) (hne : p ≠ q) : slotOf p ≠ slotOf q := by
  have := h.last q hq
  unfold slotOf ringSlots at *
  omega

theorem Inv.other {s : State ι} (h : Inv s) {t u : ι} (hu : u ≠ t)
    (hp : (s.party u).appends = some p) (hq : (s.party t).appends = some q) :
    slotOf p ≠ slotOf q := by
  refine h.ring.slotOf_ne ⟨t, hq⟩ (h.ring.last p ⟨u, hp⟩) ?_
  rintro rfl
  exact hu (h.sole u t p hp hq)

theorem EventOk.advance {r : Ring} {e : Event} (h : EventOk r e) (hr : r.Advances r') :
    EventOk r' e := by
  refine ⟨fun header payload he => ?_, h.2⟩
  obtain ⟨hret, record, hrecord, hdelivered⟩ := h.1 header payload he
  exact ⟨hr.returned _ hret, record, hr.records _ _ hrecord, hdelivered⟩

theorem reservedWord_eq (h : q < 2 ^ 63) : reservedWord q = q * 2 :=
  Nat.mod_eq_of_lt (by omega)

theorem inv_new : Inv (.new : State ι) where
  ring := by
    refine ⟨Nat.two_pow_pos 63, ?_, fun _ _ => rfl, nofun, fun _ => .inl rfl, fun k hk => ?_,
      fun q hq => absurd hq (Nat.not_lt_zero q)⟩
    · rintro q ⟨t, ht⟩
      cases ht
    · cases hk
  sole t u q ht := by cases ht
  places _ := trivial
  fetched := nofun

theorem Inv.at {s : State ι} {t : ι} {p : Place} (h : Inv s) (hp : s.party t = p) :
    PlaceOk s.ring p :=
  hp ▸ h.places t

variable [DecidableEq ι] {s : State ι} {t : ι}

theorem Inv.advance (h : Inv s) (hr : s.ring.Advances r')
    (hring : RingOk r' (Busy (update s.party t b)))
    (hsole : ∀ u q, u ≠ t → b.appends = some q → (s.party u).appends ≠ some q) (hb : PlaceOk r' b)
    (hother : ∀ u q, u ≠ t → (s.party u).appends = some q → r'.slot q = s.ring.slot q) :
    Inv ({ s with ring := r' }.move t b) where
  ring := hring
  sole u v q hu hv := by
    obtain ⟨rfl, hu'⟩ | ⟨hut, hu'⟩ := Lib.update_cases (fun p => appends p = some q) hu <;>
      obtain ⟨rfl, hv'⟩ | ⟨hvt, hv'⟩ := Lib.update_cases (fun p => appends p = some q) hv
    · rfl
    · exact absurd hv' (hsole v q hvt hu')
    · exact absurd hu' (hsole u q hut hv')
    · exact h.sole u v q hu' hv'
  places u := by
    by_cases hu : u = t
    · subst hu
      exact Lib.update_mover (PlaceOk r') hb
    · exact Lib.update_other (PlaceOk r') hu ((h.places u).advance hr (hother u · hu))
  fetched e he := (h.fetched e he).advance hr

theorem busy_update {party : ι → Place} (h : b.appends = (party t).appends) :
    Busy (update party t b) = Busy party := by
  funext q
  refine propext (exists_congr fun u => ⟨fun hu => ?_, fun hu => ?_⟩)
  · exact Lib.update_back (fun p => appends p = some q) (h ▸ ·) hu
  · exact Lib.update_keep (fun p => appends p = some q) hu h.trans

theorem Inv.stay (h : Inv s) (hp : (s.party t).appends = none) (hn : b.appends = none)
    (hb : PlaceOk s.ring b) : Inv (s.move t b) := by
  refine h.advance (.refl _) ?_ ?_ hb fun _ _ _ _ => rfl
  · rw [busy_update (hn.trans hp.symm)]
    exact h.ring
  · intro u q _ hq
    rw [hn] at hq
    cases hq

theorem Inv.finish (h : Inv s) {result : Fetch} (hp : (s.party t).appends = none)
    (he : EventOk s.ring ⟨q, returned, s.ring.next, result⟩) :
    Inv (s.finish t q returned result) := by
  have hidle := h.stay (b := .idle) hp rfl trivial
  exact { hidle with
    fetched := forall_mem_append.mpr ⟨h.fetched, forall_mem_singleton.mpr he⟩ }

theorem Inv.claim (h : Inv s) (hp : s.party t = .idle) (record : RecordData) (hok : Clear s) :
    Inv ({ s with ring := s.ring.claim record }.move t (.reserve s.ring.next record)) := by
  obtain ⟨hclear, hnext⟩ := hok
  have hnext' : (s.ring.claim record).next = s.ring.next + 1 :=
    Nat.mod_eq_of_lt (by omega)
  have hrecords (q : ℕ) (r : RecordData) (hq : s.ring.records q = some r) :
      (s.ring.claim record).records q = some r := by
    have hne : q ≠ s.ring.next := by
      rintro rfl
      rw [h.ring.unclaimed _ le_rfl] at hq
      cases hq
    exact (update_of_ne hne _ _).trans hq
  have hbusy (q : ℕ) (hq : Busy (update s.party t (.reserve s.ring.next record)) q) :
      q = s.ring.next ∨ Busy s.party q ∧ slotOf q ≠ slotOf s.ring.next := by
    obtain ⟨u, hu⟩ := hq
    obtain ⟨-, hu⟩ | ⟨-, hu⟩ := Lib.update_cases (fun p => appends p = some q) hu
    · exact .inl (Option.some.inj hu).symm
    · exact .inr ⟨⟨u, hu⟩, hclear u q hu⟩
  have hfree : ¬ Busy s.party s.ring.next := fun hb => by
    have := (h.ring.last _ hb).1
    omega
  have hkeep (q : ℕ) (hq : Busy s.party q) :
      Busy (update s.party t (.reserve s.ring.next record)) q := by
    obtain ⟨u, hu⟩ := hq
    refine ⟨u, Lib.update_keep (fun p => appends p = some q) hu fun hu => ?_⟩
    rw [hp] at hu
    cases hu
  refine h.advance ⟨?_, fun _ => .inl rfl, hrecords, fun _ => id⟩ ?_ ?_ ?_ fun _ _ _ _ => rfl
  · omega
  · constructor
    case next_lt => omega
    case last =>
      intro q hq
      obtain rfl | ⟨hq, hne⟩ := hbusy q hq
      · unfold ringSlots
        omega
      · have := h.ring.last q hq
        unfold slotOf ringSlots at *
        omega
    case unclaimed =>
      intro q hq
      exact (update_of_ne (by omega) _ _).trans (h.ring.unclaimed q (by omega))
    case returned =>
      intro q hq
      obtain ⟨hlt, hnot⟩ := h.ring.returned q hq
      refine ⟨by omega, fun hb => ?_⟩
      obtain rfl | ⟨hb, -⟩ := hbusy q hb
      · omega
      · exact hnot hb
    case words =>
      intro k
      exact (h.ring.words k).imp_right fun hlt => by
        change (s.ring.slots k).word < _
        omega
    case committed =>
      intro k hk
      obtain ⟨q, r, hword, hslot, hret, hr, hholds⟩ := h.ring.committed k hk
      exact ⟨q, r, hword, hslot, hret, hrecords q r hr, hholds⟩
    case settled =>
      intro q hlt hle hnot
      have hne : q ≠ s.ring.next := by
        rintro rfl
        exact hnot ⟨t, Lib.update_mover (fun p => appends p = some s.ring.next) rfl⟩
      exact h.ring.settled q (by omega) (by omega) fun hb => hnot (hkeep q hb)
  · intro u q _ hq hu
    obtain rfl : s.ring.next = q := Option.some.inj hq
    exact hfree ⟨u, hu⟩
  · refine ⟨update_self _ _ _, ?_⟩
    have := h.ring.words (slotOf s.ring.next)
    change (s.ring.slots (slotOf s.ring.next)).word ≤ _
    omega

theorem Ring.slot_setSlot_of_ne {r : Ring} (h : slotOf p ≠ slotOf q) :
    (r.setSlot q slot).slot p = r.slot p :=
  update_of_ne h _ _

theorem Ring.slot_setSlot (r : Ring) (q : ℕ) (slot : Slot) : (r.setSlot q slot).slot q = slot :=
  update_self _ _ _

theorem Ring.advances_setSlot {r : Ring} (h : (r.slot q).Advances slot) :
    r.Advances (r.setSlot q slot) :=
  ⟨le_rfl, (forall_update_iff _ fun k b => (r.slots k).Advances b).mpr ⟨h, fun _ _ => .inl rfl⟩,
    fun _ _ => id, fun _ => id⟩

theorem RingOk.change {r : Ring} {busy' : ℕ → Prop} {returned : List ℕ} (h : RingOk r busy)
    (hq : busy q) (hbusy : ∀ p, busy' p → busy p) (hother : ∀ p, p ≠ q → busy p → busy' p)
    (hkept : ∀ p ∈ r.returned, p ∈ returned) (hreturned : ∀ p ∈ returned, p < r.next ∧ ¬ busy' p)
    (hslot : slot.word = q * 2 ∧ busy' q ∨ slot.word = q * 2 + 1 ∧ q ∈ returned ∧
      ∃ record, r.records q = some record ∧ Holds slot.cells record q) :
    RingOk { r.setSlot q slot with returned := returned } busy' := by
  have hlast := (h.last q hq).1
  refine ⟨h.next_lt, fun p hp => h.last p (hbusy p hp), h.unclaimed, hreturned, ?_, ?_, ?_⟩
  · exact (forall_update_iff r.slots fun _ b => b.word = 0 ∨ b.word < r.next * 2).mpr
      ⟨by omega, fun k _ => h.words k⟩
  · refine (forall_update_iff r.slots fun k b => b.word % 2 = 1 → ∃ p record,
      b.word = p * 2 + 1 ∧ slotOf p = k ∧ p ∈ returned ∧ r.records p = some record ∧
        Holds b.cells record p).mpr
      ⟨fun hodd => ?_, fun k _ hodd => ?_⟩
    · obtain ⟨heven, -⟩ | ⟨hword, hmem, record, hr⟩ := hslot
      · omega
      · exact ⟨q, record, hword, rfl, hmem, hr⟩
    · obtain ⟨p, record, hword, hp, hmem, hr⟩ := h.committed k hodd
      exact ⟨p, record, hword, hp, hkept p hmem, hr⟩
  · intro p hlt hle hnot
    by_cases hpq : p = q
    · subst hpq
      obtain ⟨-, hb⟩ | ⟨hword, -⟩ := hslot
      · exact absurd hb hnot
      · exact (congrArg Slot.word (r.slot_setSlot p slot)).trans hword
    · have hne := h.slotOf_ne hq ⟨hlt, hle⟩ hpq
      exact (congrArg Slot.word (update_of_ne hne _ _)).trans
        (h.settled p hlt hle fun hb => hnot (hother p hpq hb))

theorem RingOk.publish {r : Ring} {busy' : ℕ → Prop} (h : RingOk r busy) (hq : busy q)
    (hbusy : ∀ p, busy' p ↔ busy p ∧ p ≠ q) (hrecord : r.records q = some record)
    (hholds : Holds (r.slot q).cells record q) : RingOk (r.publish q) busy' := by
  have hlast := h.last q hq
  have hword : committedWord q = q * 2 + 1 := by
    have := h.next_lt
    unfold committedWord
    rw [reservedWord_eq (by omega)]
  refine h.change hq (fun p hb => ((hbusy p).mp hb).1) (fun p hne hb => (hbusy p).mpr ⟨hb, hne⟩)
    (fun _ => mem_cons_of_mem _) (forall_mem_cons.mpr ⟨?_, fun p hp => ?_⟩)
    (.inr ⟨hword, mem_cons_self, record, hrecord, hholds⟩)
  · exact ⟨hlast.1, fun hb => ((hbusy q).mp hb).2 rfl⟩
  · exact ⟨(h.returned p hp).1, fun hb => (h.returned p hp).2 ((hbusy p).mp hb).1⟩

theorem Inv.setSlot (h : Inv s) (hp : (s.party t).appends = some q) (hb : b.appends = some q)
    (hword : slot.word = q * 2) (hle : (s.ring.slot q).word ≤ q * 2)
    (hok : PlaceOk (s.ring.setSlot q slot) b) :
    Inv ({ s with ring := s.ring.setSlot q slot }.move t b) := by
  refine h.advance (Ring.advances_setSlot (.inr ⟨by omega, by omega⟩)) ?_ ?_ hok ?_
  · rw [busy_update (hb.trans hp.symm)]
    exact h.ring.change ⟨t, hp⟩ (fun _ => id) (fun _ _ => id) (fun _ => id) h.ring.returned
      (.inl ⟨hword, t, hp⟩)
  · intro u p hu hbp hup
    obtain rfl : q = p := Option.mem_unique hb hbp
    exact hu (h.sole u t q hup hp)
  · intro u p hu hup
    exact Ring.slot_setSlot_of_ne (h.other hu hup hp)

theorem Inv.reserve (h : Inv s) (hp : s.party t = .reserve q record) :
    Inv ({ s with ring := s.ring.reserve q }.move t (.write q record (writes record q))) := by
  have hq : (s.party t).appends = some q := congrArg appends hp
  obtain ⟨hrecord, hle⟩ := h.at hp
  have hlt := (h.ring.last q ⟨t, hq⟩).1
  have hword : reservedWord q = q * 2 := reservedWord_eq (hlt.trans h.ring.next_lt)
  refine h.setSlot hq rfl hword hle ⟨hrecord, ?_, [], rfl, nofun⟩
  rw [Ring.slot_setSlot]
  exact hword

theorem Inv.write (h : Inv s) {value : ℕ} {todo : List (Cell × ℕ)}
    (hp : s.party t = .write q record ((c, value) :: todo)) :
    Inv ({ s with ring := s.ring.setCell q c value }.move t (.write q record todo)) := by
  have hq : (s.party t).appends = some q := congrArg appends hp
  obtain ⟨hrecord, hword, done, hwrites, hdone⟩ := h.at hp
  refine h.setSlot hq rfl hword hword.le ⟨hrecord, ?_, done ++ [(c, value)], ?_, ?_⟩
  · rw [Ring.slot_setSlot]
    exact hword
  · rw [hwrites, append_assoc, singleton_append]
  · rw [Ring.slot_setSlot]
    have hnodup := nodup_writes record q
    rw [hwrites, map_append] at hnodup
    intro w hw
    rcases mem_append.mp hw with hold | hnew
    · have hne : w.1 ≠ c := by
        rintro rfl
        exact disjoint_of_nodup_append hnodup (mem_map_of_mem hold) mem_cons_self
      exact (update_of_ne hne _ _).trans (hdone w hold)
    · rw [mem_singleton.mp hnew]
      exact update_self _ _ _

theorem Inv.publish (h : Inv s) (hp : s.party t = .write q record []) :
    Inv ({ s with ring := s.ring.publish q }.move t .idle) := by
  have hq : (s.party t).appends = some q := congrArg appends hp
  obtain ⟨hrecord, hword, done, hwrites, hdone⟩ := h.at hp
  have hholds : Holds (s.ring.slot q).cells record q := by
    unfold Holds
    rw [hwrites, append_nil]
    exact hdone
  have hlt := (h.ring.last q ⟨t, hq⟩).1
  have hcommitted : committedWord q = q * 2 + 1 :=
    congrArg (· + 1) (reservedWord_eq (hlt.trans h.ring.next_lt))
  have hadv : s.ring.Advances (s.ring.publish q) := by
    have hlater : (s.ring.slot q).word < committedWord q := by omega
    have hset := Ring.advances_setSlot
      (show (s.ring.slot q).Advances ⟨committedWord q, (s.ring.slot q).cells⟩ from
        .inr ⟨hlater.le, fun _ => hlater⟩)
    exact { hset with returned := fun p hmem => mem_cons_of_mem _ hmem }
  refine h.advance hadv (h.ring.publish ⟨t, hq⟩ ?_ hrecord hholds) nofun trivial ?_
  · intro p
    constructor
    · rintro ⟨u, hu⟩
      obtain ⟨-, hu'⟩ | ⟨hut, hu'⟩ := Lib.update_cases (fun b => appends b = some p) hu
      · cases hu'
      · refine ⟨⟨u, hu'⟩, ?_⟩
        rintro rfl
        exact hut (h.sole u t p hu' hq)
    · rintro ⟨⟨u, hu⟩, hne⟩
      refine ⟨u, Lib.update_keep (fun b => appends b = some p) hu fun hu => ?_⟩
      exact absurd (Option.mem_unique hu hq) hne
  · intro u p hu hup
    exact Ring.slot_setSlot_of_ne (h.other hu hup hq)

theorem RingOk.present {r : Ring} (h : RingOk r busy) (hq : q ∈ r.returned)
    (hle : r.next ≤ q + ringSlots) : (r.slot q).word = q * 2 + 1 :=
  h.settled q (h.returned q hq).1 hle (h.returned q hq).2

theorem Inv.load (h : Inv s) (hp : s.party t = .load q returned) : Inv (s.load t q returned) := by
  have hidle : (s.party t).appends = none := congrArg appends hp
  have hret : returned = true → q ∈ s.ring.returned := h.at hp
  -- a fetch that gives up is not owed the record
  have howed (hne : (s.ring.slot q).word ≠ q * 2 + 1) (hb : returned = true) :
      q + ringSlots < s.ring.next := by
    by_contra hle
    exact hne (h.ring.present (hret hb) (by omega))
  have hpending (hne : (s.ring.slot q).word ≠ q * 2 + 1) :
      EventOk s.ring ⟨q, returned, s.ring.next, .pending⟩ := by
    refine ⟨nofun, fun hb hle => ?_⟩
    have := howed hne hb
    change s.ring.next ≤ q + ringSlots at hle
    omega
  unfold State.load
  dsimp only
  split_ifs with hzero hgt hlow
  · exact h.finish hidle (hpending (by omega))
  · exact h.stay hidle rfl fun hb => ⟨hret hb, howed (by omega) hb⟩
  · exact h.finish hidle (hpending (by omega))
  · exact h.stay hidle rfl ⟨hret, by omega, le_rfl, [], rfl, fun _ => nofun⟩

theorem Inv.copy (h : Inv s) {todo : List Cell}
    (hp : s.party t = .copy q returned before (c :: todo) copied) :
    Inv (s.move t (.copy q returned before todo
      (update copied c ((s.ring.slot q).cells c)))) := by
  have hidle : (s.party t).appends = none := congrArg appends hp
  obtain ⟨hret, hbefore, hle, done, hreads, hagree⟩ := h.at hp
  refine h.stay hidle rfl ⟨hret, hbefore, hle, done ++ [c], ?_, fun hsame d hd => ?_⟩
  · rw [hreads, append_assoc, singleton_append]
  · by_cases hdc : d = c
    · rw [hdc]
      exact update_self _ _ _
    · have hmem : d ∈ done := by simpa [hdc] using hd
      exact (update_of_ne hdc _ _).trans (hagree hsame d hmem)

theorem Inv.validate (h : Inv s) (hp : s.party t = .copy q returned before [] copied) :
    Inv (s.validate t q returned before copied) := by
  have hidle : (s.party t).appends = none := congrArg appends hp
  obtain ⟨hret, hbefore, hle, done, hreads, hagree⟩ := h.at hp
  unfold State.validate
  split_ifs with hne
  · refine h.stay hidle rfl fun hb => ⟨hret hb, ?_⟩
    by_contra hlate
    exact hne ((h.ring.present (hret hb) (by omega)).trans hbefore.symm)
  · have hsame : (s.ring.slot q).word = before := not_not.mp hne
    obtain ⟨p, record, hword, -, hmem, hrecord, hholds⟩ :=
      h.ring.committed (slotOf q) (by change (s.ring.slot q).word % 2 = 1; omega)
    obtain rfl : p = q := by
      change (s.ring.slot q).word = _ at hword
      omega
    rw [append_nil] at hreads
    have hdeliver : deliver copied = .ready (record.header p) record.payload := by
      rw [deliver_congr (hreads ▸ hagree hsame)]
      exact hholds.deliver
    refine h.finish hidle ⟨fun header payload he => ⟨hmem, record, hrecord, ?_⟩, fun _ _ => ?_⟩
    · have := Fetch.ready.inj (hdeliver.symm.trans he)
      exact ⟨this.1.symm, this.2.symm⟩
    · exact ⟨_, _, hdeliver⟩

theorem Inv.lose (h : Inv s) (hp : s.party t = .lose q returned) :
    Inv (s.finish t q returned (.lost (s.ring.next - ringSlots))) := by
  refine h.finish (congrArg appends hp) ⟨nofun, fun hb hle => ?_⟩
  have := (h.at hp hb).2
  change s.ring.next ≤ q + ringSlots at hle
  omega

theorem Inv.step {s' : State ι} (h : Inv s) (hstep : Step Clear s t s') : Inv s' := by
  cases hstep with
  | claim record hp hok => exact h.claim hp record hok
  | reserve hp => exact h.reserve hp
  | write hp => exact h.write hp
  | publish hp => exact h.publish hp
  | call q hp _ =>
    exact h.stay (congrArg appends hp) rfl fun hb => of_decide_eq_true hb
  | load hp => exact h.load hp
  | copy hp => exact h.copy hp
  | validate hp => exact h.validate hp
  | lose hp => exact h.lose hp

theorem inv_of_reachable (h : (machine ι Clear).Reachable s) : Inv s := by
  refine h.invariant ?_ fun s s' hs ⟨t, hstep⟩ => hs.step hstep
  intro s hs
  obtain rfl : s = _ := hs
  exact inv_new

end Roanix.Sys.Klog
